import CrudeOAuth.Machine.Coherence
import CrudeOAuth.Machine.Provenance

/-!
# What a call has seen

A call of a cache is judged by the steps since it was made (`lastCall`): what it found of
the file of its key, and why it ended as it did, is recorded there (`records_of_run`).

So a value that is returned was computed from what the file was during the call, even if it
was found in the cache, where stamps settle safely (`FileCache.current_of_run`). And if the
file stays as it is during the call, the call ends as it would without a cache
(`FileCache.transparent_of_run`).
-/

namespace Machine

open Rust

variable {κ ℓ τ ε α : Type}

/-! ## Calls -/

/-- The step makes a call of the thread. -/
def Taken.calls (tid : Nat) (t : Taken (CacheState κ ℓ τ ε α) (Label κ)) : Bool :=
  match t.label with
  | .thread tid' (.call _) => tid' = tid
  | _ => false

/-- The steps since the thread made its last call. -/
abbrev lastCall (tid : Nat) (tr : History κ ℓ τ ε α) : History κ ℓ τ ε α := since (Taken.calls tid) tr

theorem calls_eq_true {tid : Nat} {t : Taken (CacheState κ ℓ τ ε α) (Label κ)} :
    t.calls tid = true ↔ ∃ key, t.label = .thread tid (.call key) := by
  unfold Taken.calls
  split
  · rename_i tid' key hlabel
    simp [hlabel]
  · rename_i hlabel
    exact iff_of_false (by simp) fun ⟨key, h⟩ => hlabel tid key h

/-! ## Records -/

/-- A call of the operating system by the thread failed. -/
def Faulted (tid : Nat) (tr : History κ ℓ τ ε α) : Prop :=
  ∃ t ∈ tr, ∃ e, t.label = .thread tid (.fail e)

/-- The file was seen at the path. -/
def FileCache.SeenIn (cache : FileCache κ ℓ τ ε α) (tr : History κ ℓ τ ε α) (seen : Seen τ) : Prop :=
  ∃ t ∈ tr, ∃ id, t.before.fs.find seen.path = some (id, seen.file) ∧
    seen.stamp = cache.stamp (seen.file.metadata id)

/-- What a call returns. -/
def Result.outcome : Result τ ε α → Outcome ε α
  | .hit entry _ | .made entry => .ok entry.value
  | .failed e => .err e
  | .panicked => .panic

/-- The value that a call returns, as an entry of the cache. -/
def Result.entry : Result τ ε α → Option (Entry τ α)
  | .hit entry _ | .made entry => some entry
  | .failed _ | .panicked => none

/-- Why a call for the key ended with the result. -/
inductive FileCache.Judged (cache : FileCache κ ℓ τ ε α) (tid : Nat) (tr : History κ ℓ τ ε α) (key : κ) :
    Result τ ε α → Prop
  | found {entry : Entry τ α} {seen : Option (Seen τ)} (hpath : cache.path key = .ok (seen.map Seen.path))
    (h : ∀ sn, seen = some sn → cache.SeenIn tr sn) : Judged cache tid tr key (.hit entry seen)
  | made {entry : Entry τ α} (h : OriginRead tr entry.origin) : Judged cache tid tr key (.made entry)
  | noPath {result : Result τ ε α} (hno : ∀ path, cache.path key ≠ .ok path)
    (h : ∀ e, result.outcome = .err e ↔ cache.path key = .err e) (hfailed : result.entry = none) :
    Judged cache tid tr key result
  | faulted {path : String} {call : FileCall} {e : String} (h : Faulted tid tr) :
    Judged cache tid tr key (.failed (cache.fileError key path call e))
  | refused {path : String} {metadata : Metadata} {e : ε} (hpath : cache.path key = .ok (some path))
    (h : HadMetadata tr path metadata) (haccept : cache.accept key path metadata = .error e) :
    Judged cache tid tr key (.failed e)
  | spoilt {result : Result τ ε α} (origin : Option Origin) (hpath : cache.path key = .ok (origin.map Origin.path))
    (haccept : ∀ o, origin = some o → cache.accept key o.path o.metadata = .ok ()) (h : OriginRead tr origin)
    (hload : result.outcome = cache.load key (origin.map fun o => (o.path, o.content))) (hfailed : result.entry = none) :
    Judged cache tid tr key result

/-- What a phase of a call goes by is recorded in the steps. -/
def FileCache.Records (cache : FileCache κ ℓ τ ε α) (tid : Nat) (tr : History κ ℓ τ ε α) : Phase κ τ ε α → Prop
  | .toLookUp _ (some seen) => cache.SeenIn tr seen
  | .toFstat _ path id => FoundAt tr path id
  | .toRead _ path metadata => HadMetadata tr path metadata
  | .toSample _ origin _ => ReadFrom tr origin
  | .toStore _ _ origin _ => OriginRead tr origin
  | .done key result => cache.Judged tid tr key result
  | .idle | .toStat _ _ | .toLookUp _ none | .toOpen _ _ => True

variable {cache : FileCache κ ℓ τ ε α} {tick tid : Nat} {s s' : CacheState κ ℓ τ ε α} {act : Act κ}
  {phase phase' : Phase κ τ ε α} {key : κ} {result : Result τ ε α} {tr more : History κ ℓ τ ε α}

theorem Faulted.append (h : Faulted tid tr) : Faulted tid (tr ++ more) := by
  obtain ⟨t, ht, h⟩ := h
  exact ⟨t, List.mem_append_left _ ht, h⟩

theorem FileCache.SeenIn.append {seen : Seen τ} (h : cache.SeenIn tr seen) : cache.SeenIn (tr ++ more) seen := by
  obtain ⟨t, ht, h⟩ := h
  exact ⟨t, List.mem_append_left _ ht, h⟩

theorem OriginRead.append {origin : Option Origin} (h : OriginRead tr origin) : OriginRead (tr ++ more) origin :=
  fun o ho => (h o ho).append

theorem OriginRead.extend {origin : Option Origin} (h : OriginRead tr origin) (hmore : tr <+: more) :
    OriginRead more origin := by
  obtain ⟨post, rfl⟩ := hmore
  exact h.append

theorem FileCache.Judged.append (h : cache.Judged tid tr key result) : cache.Judged tid (tr ++ more) key result := by
  cases h with
  | found hpath h => exact .found hpath fun sn hsn => (h sn hsn).append
  | made h => exact .made h.append
  | noPath hno h hfailed => exact .noPath hno h hfailed
  | faulted h => exact .faulted h.append
  | refused hpath h haccept => exact .refused hpath h.append haccept
  | spoilt origin hpath haccept h hload hfailed => exact .spoilt origin hpath haccept h.append hload hfailed

theorem FileCache.Records.append (h : cache.Records tid tr phase) : cache.Records tid (tr ++ more) phase := by
  cases phase with
  | toLookUp key seen =>
    cases seen with
    | none => trivial
    | some seen => exact FileCache.SeenIn.append h
  | toFstat => exact FoundAt.append h
  | toRead => exact HadMetadata.append h
  | toSample => exact ReadFrom.append h
  | toStore => exact OriginRead.append h
  | done => exact FileCache.Judged.append h
  | idle | toStat | toOpen => trivial

theorem records_start : cache.Records tid tr (cache.start key) := by
  unfold FileCache.start
  split
  · trivial
  · trivial
  · rename_i e hpath
    exact .noPath (by simp [hpath]) (by simp [hpath, Result.outcome]) rfl
  · rename_i hpath
    exact .noPath (by simp [hpath]) (by simp [hpath, Result.outcome]) rfl

/-- What comes of loading is recorded, whether it is a value or not. -/
theorem records_afterLoad {origin : Option Origin} {next : α → Phase κ τ ε α}
    (hpath : cache.path key = .ok (origin.map Origin.path))
    (haccept : ∀ o, origin = some o → cache.accept key o.path o.metadata = .ok ()) (h : OriginRead tr origin)
    (hnext : ∀ value, cache.Records tid tr (next value)) :
    cache.Records tid tr
      (FileCache.afterLoad key (cache.load key (origin.map fun o => (o.path, o.content))) next) := by
  unfold FileCache.afterLoad
  split
  · exact hnext _
  · rename_i e hload
    exact .spoilt origin hpath haccept h hload.symm rfl
  · rename_i hload
    exact .spoilt origin hpath haccept h hload.symm rfl

section

variable [DecidableEq τ]

theorem start_of_next (h : cache.next s (.call key) phase = some phase') : phase' = cache.start key := by
  cases phase with
  | idle | done => exact (Option.some.inj h).symm
  | _ => cases h

theorem exists_key_of_next (h : cache.next s act phase = some phase') : ∃ key, phase'.key = some key := by
  cases moves_of_next h with
  | start => exact ⟨_, key_start⟩
  | _ => exact ⟨_, rfl⟩

/-- A step records what it finds. -/
theorem records_of_next (h : cache.next s act phase = some phase') (hcall : ∀ key, act ≠ .call key)
    (hphase : cache.Records tid tr phase) (hknows : cache.Knows phase) :
    cache.Records tid (tr ++ [⟨s, .thread tid act, s'⟩]) phase' := by
  have hfault : ∀ e, act = .fail e → Faulted tid (tr ++ [⟨s, .thread tid act, s'⟩]) := fun e he =>
    ⟨_, List.mem_append_right _ (List.mem_singleton_self _), e, congrArg _ he⟩
  unfold FileCache.next at h
  split at h
  case h_1 | h_2 => exact absurd rfl (hcall _)
  case h_3 =>
    obtain ⟨⟨id, file⟩, hfind, rfl⟩ := Option.map_eq_some_iff.1 h
    exact ⟨_, List.mem_append_right _ (List.mem_singleton_self _), id, hfind, rfl⟩
  case h_4 key seen =>
    split at h
    · cases h
    · split at h
      · obtain rfl := Option.some.inj h
        refine .found hknows ?_
        rintro sn rfl
        exact FileCache.SeenIn.append hphase
      · split at h
        · obtain rfl := Option.some.inj h
          trivial
        · obtain rfl := Option.some.inj h
          exact @records_afterLoad _ _ _ _ _ cache tid key _ none _ hknows (by simp) (fun o ho => by cases ho)
            fun value o ho => by cases ho
  case h_5 =>
    obtain ⟨⟨id, file⟩, hfind, rfl⟩ := Option.map_eq_some_iff.1 h
    exact ⟨tr, _, [], file, rfl, hfind⟩
  case h_6 key path id =>
    obtain ⟨file, hfile, rfl⟩ := Option.map_eq_some_iff.1 h
    have hmetadata : HadMetadata (tr ++ [⟨s, .thread tid .advance, s'⟩]) path (file.metadata id) :=
      ⟨tr, _, [], file, rfl, hphase, hfile, rfl⟩
    split
    · exact hmetadata
    · rename_i e haccept
      exact .refused hknows hmetadata haccept
  case h_7 key path metadata =>
    obtain ⟨file, hfile, rfl⟩ := Option.map_eq_some_iff.1 h
    have hread : ReadFrom (tr ++ [⟨s, .thread tid .advance, s'⟩]) { path, metadata, content := file.content } :=
      ⟨tr, _, [], file, rfl, hphase, hfile, rfl⟩
    refine @records_afterLoad _ _ _ _ _ cache tid key _ (some { path, metadata, content := file.content }) _
      hknows.1 ?_ ?_ fun value => hread
    · rintro o ⟨⟩
      exact hknows.2
    · rintro o ⟨⟩
      exact hread
  case h_8 =>
    obtain rfl := Option.some.inj h
    rintro o ⟨⟩
    exact ReadFrom.append hphase
  case h_9 =>
    obtain rfl := Option.some.inj h
    exact .made (OriginRead.append hphase)
  case h_14 => cases h
  -- In the remaining cases a call of the operating system fails.
  all_goals
    obtain rfl := Option.some.inj h
    exact .faulted (hfault _ rfl)

variable [DecidableEq κ] [DecidableEq ℓ]

/-- In every run, what a call goes by is recorded since it was made. -/
theorem FileCache.records_of_run {fs : FileSystem} {clock : Nat}
    (hrun : Run (cache.Step tick) (CacheState.initial fs clock) tr s) (tid : Nat) :
    cache.Records tid (lastCall tid tr) (s.threads tid) := by
  refine hrun.history (P := fun tr s => cache.Records tid (lastCall tid tr) (s.threads tid)) ?_
    fun tr s₁ label s₂ hrun hs h => ?_
  · exact trivial
  rw [lastCall, since_append]
  by_cases hown : ∃ act, label = .thread tid act
  · obtain ⟨act, rfl⟩ := hown
    obtain ⟨phase, hnext, rfl⟩ := step_thread h
    rw [enter_threads, if_pos rfl]
    by_cases hcall : ∃ key, act = .call key
    · obtain ⟨key, rfl⟩ := hcall
      rw [start_of_next hnext]
      exact records_start
    · have hno : Taken.calls tid ⟨s₁, .thread tid act,
          (s₁.commit (s₁.threads tid)).enter cache tid phase⟩ = false := by
        rw [Bool.eq_false_iff, ne_eq, calls_eq_true]
        rintro ⟨key, hlabel⟩
        cases hlabel
        exact hcall ⟨key, rfl⟩
      rw [hno, if_neg (by decide)]
      exact records_of_next hnext (fun key hkey => hcall ⟨key, hkey⟩) hs ((sound_of_run hrun).1.threads tid)
  · have hno : Taken.calls tid ⟨s₁, label, s₂⟩ = false := by
      rw [Bool.eq_false_iff, ne_eq, calls_eq_true]
      rintro ⟨key, hlabel⟩
      exact hown ⟨_, hlabel⟩
    rw [hno, if_neg (by decide), threads_of_step h fun act hlabel => hown ⟨act, hlabel⟩]
    exact hs.append

end

/-! ## Values -/

/-- A file that was found at the path was as `P` says then, or after that. -/
def Showed (tr : History κ ℓ τ ε α) (path : String) (id : FileId) (P : File → Prop) : Prop :=
  ∃ pre t post file, tr = pre ++ t :: post ∧ FoundAt (pre ++ [t]) path id ∧ t.before.fs.files id = some file ∧ P file

/-- What was read is what a file at the path of the key was, as far as it matters for the key. -/
def FileCache.CurrentIn (cache : FileCache κ ℓ τ ε α) (tr : History κ ℓ τ ε α) (key : κ) (origin : Origin) : Prop :=
  ∃ id, Showed tr origin.path id (fun file => file.content = origin.content) ∧
    (cache.usesMode key = true → Showed tr origin.path id fun file => file.mode = origin.metadata.mode)

theorem Showed.imp {path : String} {id : FileId} {P Q : File → Prop} (h : Showed tr path id P)
    (himp : ∀ file, P file → Q file) : Showed tr path id Q := by
  obtain ⟨pre, t, post, file, htr, hfound, hfile, hP⟩ := h
  exact ⟨pre, t, post, file, htr, hfound, hfile, himp file hP⟩

theorem Showed.within {path : String} {id : FileId} {P : File → Prop} (h : Showed tr path id P) (hmore : tr <:+: more) :
    Showed more path id P := by
  obtain ⟨pre, t, post, file, rfl, ⟨pre', t', post', file', hfound, hfind⟩, hfile, hP⟩ := h
  obtain ⟨before, after, rfl⟩ := hmore
  refine ⟨before ++ pre, t, post ++ after, file, by simp, ⟨before ++ pre', t', post', file', ?_, hfind⟩, hfile, hP⟩
  rw [List.append_assoc, hfound, List.append_assoc]

theorem FileCache.CurrentIn.within {origin : Origin} (h : cache.CurrentIn tr key origin) (hmore : tr <:+: more) :
    cache.CurrentIn more key origin := by
  obtain ⟨id, hcontent, hmode⟩ := h
  exact ⟨id, hcontent.within hmore, fun huses => (hmode huses).within hmore⟩

theorem Showed.of_readFrom {origin : Origin} (h : ReadFrom tr origin) :
    Showed tr origin.path origin.metadata.id (fun file => file.content = origin.content) ∧
      Showed tr origin.path origin.metadata.id fun file => file.mode = origin.metadata.mode := by
  obtain ⟨_, t, post, file, rfl, ⟨pre, t', post', file', rfl, hfound, hfile', hmetadata⟩, hfile, hcontent⟩ := h
  refine ⟨⟨_, t, post, file, rfl, ?_, hfile, hcontent⟩,
    ⟨pre, t', post' ++ t :: post, file', by simp, hfound.append, hfile', congrArg Metadata.mode hmetadata⟩⟩
  rw [List.append_assoc]
  exact hfound.append

section Stable

variable {path : String} {id id' : FileId} {file : File}

theorem FoundAt.eq_of_stable (h : FoundAt tr path id')
    (hstable : ∀ t ∈ tr, t.before.fs.find path = some (id, file)) : id' = id := by
  obtain ⟨pre, t, post, file', rfl, hfind⟩ := h
  have hnow := hstable t (List.mem_append_right _ List.mem_cons_self)
  exact (Prod.mk.inj (Option.some.inj (hfind.symm.trans hnow))).1

/-- A file that stays at the path as it is, is as it was. -/
theorem Showed.of_stable {P : File → Prop} (h : Showed tr path id' P)
    (hstable : ∀ t ∈ tr, t.before.fs.find path = some (id, file)) : P file := by
  obtain ⟨pre, t, post, file', rfl, hfound, hfile', hP⟩ := h
  rw [List.append_cons] at hstable
  obtain rfl := hfound.eq_of_stable fun t' ht' => hstable t' (List.mem_append_left _ ht')
  have hnow := hstable t (List.mem_append_left _ (List.mem_append_right _ (List.mem_singleton_self _)))
  obtain rfl := Option.some.inj (hfile'.symm.trans (FileSystem.find_eq_some.1 hnow).2)
  exact hP

theorem HadMetadata.eq_of_stable {metadata : Metadata} (h : HadMetadata tr path metadata)
    (hstable : ∀ t ∈ tr, t.before.fs.find path = some (id, file)) : metadata = file.metadata id := by
  obtain ⟨pre, t, post, file', rfl, hfound, hfile', hmetadata⟩ := h
  have hid := hfound.eq_of_stable fun t' ht' => hstable t' (List.mem_append_left _ ht')
  have hnow := hstable t (List.mem_append_right _ List.mem_cons_self)
  rw [hid] at hfile' hmetadata
  rw [← hmetadata, Option.some.inj (hfile'.symm.trans (FileSystem.find_eq_some.1 hnow).2)]

theorem ReadFrom.hadMetadata {origin : Origin} (h : ReadFrom tr origin) :
    HadMetadata tr origin.path origin.metadata := by
  obtain ⟨pre, t, post, file, rfl, hmetadata, -⟩ := h
  exact hmetadata.append

end Stable

/-- What a call gives without a cache, where these are the files. -/
def FileCache.plain (cache : FileCache κ ℓ τ ε α) (key : κ) (files : String → FileId × File) : Outcome ε α :=
  match cache.path key with
  | .ok none => cache.load key none
  | .ok (some path) =>
    match cache.accept key path ((files path).2.metadata (files path).1) with
    | .ok () => cache.load key (some (path, (files path).2.content))
    | .error e => .err e
  | .err e => .err e
  | .panic => .panic

theorem plain_of_origin {files : String → FileId × File} {origin : Option Origin}
    (hpath : cache.path key = .ok (origin.map Origin.path))
    (haccept : ∀ o, origin = some o → cache.accept key o.path ((files o.path).2.metadata (files o.path).1) = .ok ())
    (hcontent : ∀ o, origin = some o → (files o.path).2.content = o.content) :
    cache.plain key files = cache.load key (origin.map fun o => (o.path, o.content)) := by
  rw [FileCache.plain, hpath]
  cases origin with
  | none => rfl
  | some o =>
    dsimp only [Option.map_some]
    rw [haccept o rfl, hcontent o rfl]

section

variable [DecidableEq τ] [DecidableEq κ] [DecidableEq ℓ]

/-- In the runs in which stamps settle safely, a value that a call returns was computed from what
    the file of its key was during the call. -/
theorem FileCache.current_of_run (hlaw : cache.Lawful tick) (htick : 0 < tick) {fs : FileSystem} {clock : Nat}
    (hrun : Run (cache.Step tick) (CacheState.initial fs clock) tr s)
    (hsafe : ∀ t ∈ tr, cache.SettlesSafely t.before t.label) (hdone : s.threads tid = .done key result)
    {entry : Entry τ α} (hentry : result.entry = some entry) {origin : Origin} (horigin : entry.origin = some origin) :
    cache.CurrentIn (lastCall tid tr) key origin := by
  have hjudged : cache.Judged tid (lastCall tid tr) key result := by
    have h := FileCache.records_of_run hrun tid
    rwa [hdone] at h
  cases hjudged with
  | @found entry' seen hpath hseen =>
    obtain rfl := Option.some.inj hentry
    have hknows := (FileCache.sound_of_run hrun).1.threads tid
    rw [hdone] at hknows
    have horigin' := Outcome.ok.inj (hpath.symm.trans hknows.1)
    rw [horigin] at horigin'
    obtain ⟨seen, rfl, hsame⟩ := Option.map_eq_some_iff.1 horigin'
    -- The file was seen at the stat of the call, and the value is coherent with it.
    obtain ⟨o, ho, hcontent, hmode⟩ := (FileCache.coherent_of_run hlaw htick hrun hsafe).1 tid key entry' seen hdone
    obtain rfl := Option.some.inj (horigin.symm.trans ho)
    obtain ⟨t, ht, id, hfind, -⟩ := hseen seen rfl
    obtain ⟨pre, post, htr⟩ := List.append_of_mem ht
    have hfile := (FileSystem.find_eq_some.1 hfind).2
    rw [hsame] at hfind
    have hfound : FoundAt (pre ++ [t]) origin.path id := ⟨pre, t, [], _, rfl, hfind⟩
    exact ⟨id, ⟨pre, t, post, _, htr, hfound, hfile, hcontent.symm⟩,
      fun huses => ⟨pre, t, post, _, htr, hfound, hfile, (hmode huses).symm⟩⟩
  | made hread =>
    obtain rfl := Option.some.inj hentry
    obtain ⟨hcontent, hmode⟩ := Showed.of_readFrom (hread origin horigin)
    exact ⟨_, hcontent, fun _ => hmode⟩
  | noPath hno h hfailed | spoilt o hpath haccept h hload hfailed =>
    rw [hentry] at hfailed
    cases hfailed
  | faulted | refused => cases hentry

/-- In the runs in which stamps settle safely, a call ends as it would without a cache, if the
    file stays as it is during the call, and no call of the operating system fails. -/
theorem FileCache.transparent_of_run (hlaw : cache.Lawful tick) (htick : 0 < tick) {fs : FileSystem} {clock : Nat}
    (hrun : Run (cache.Step tick) (CacheState.initial fs clock) tr s)
    (hsafe : ∀ t ∈ tr, cache.SettlesSafely t.before t.label) (hdone : s.threads tid = .done key result)
    {files : String → FileId × File} (hstable : ∀ path, cache.path key = .ok (some path) →
      ∀ t ∈ lastCall tid tr, t.before.fs.find path = some (files path))
    (haccept : ∀ path metadata, cache.accept key path metadata = .ok () →
      (cache.usesMode key = true → (files path).2.mode = metadata.mode) →
        cache.accept key path ((files path).2.metadata (files path).1) = .ok ())
    (hfault : ¬Faulted tid (lastCall tid tr)) : result.outcome = cache.plain key files := by
  have hjudged : cache.Judged tid (lastCall tid tr) key result := by
    have h := FileCache.records_of_run hrun tid
    rwa [hdone] at h
  -- Of a value it is known what it was computed from, and that this is what the file is.
  have hvalue : ∀ entry, result.entry = some entry → result.outcome = .ok entry.value →
      result.outcome = cache.plain key files := by
    intro entry hentry hout
    have hcomputes : cache.Computes key entry.origin entry.value := by
      have hknows := (FileCache.sound_of_run hrun).1.threads tid
      rw [hdone] at hknows
      cases result with
      | hit | made =>
        obtain rfl := Option.some.inj hentry
        exact hknows
      | failed | panicked => cases hentry
    obtain ⟨hpath, hread, hload⟩ := hcomputes
    have hcurrent : ∀ o, entry.origin = some o → cache.CurrentIn (lastCall tid tr) key o := fun o ho =>
      FileCache.current_of_run hlaw htick hrun hsafe hdone hentry ho
    rw [plain_of_origin hpath (fun o ho => ?_) fun o ho => ?_, hload, hout]
    · obtain ⟨id', -, hmode⟩ := hcurrent o ho
      rw [ho] at hpath
      exact haccept o.path o.metadata (hread o ho) fun huses => (hmode huses).of_stable (hstable _ hpath)
    · obtain ⟨id', hcontent, -⟩ := hcurrent o ho
      rw [ho] at hpath
      exact hcontent.of_stable (hstable _ hpath)
  cases hjudged with
  | @found entry | @made entry => exact hvalue entry rfl rfl
  | noPath hno h hfailed =>
    cases hpath : cache.path key with
    | ok path => exact absurd hpath (hno path)
    | err e =>
      rw [(h e).2 hpath, FileCache.plain, hpath]
    | panic =>
      rw [FileCache.plain, hpath]
      cases result with
      | hit | made => cases hfailed
      | failed e => exact absurd ((h e).1 rfl) (by simp [hpath])
      | panicked => rfl
  | faulted h => exact absurd h hfault
  | @refused path metadata e hpath h hrefused =>
    rw [h.eq_of_stable (hstable path hpath)] at hrefused
    rw [FileCache.plain, hpath]
    dsimp only
    rw [hrefused]
    rfl
  | spoilt origin hpath hread h hload hfailed =>
    rw [hload, plain_of_origin hpath (fun o ho => ?_) fun o ho => ?_]
    · rw [ho] at hpath
      rw [← (h o ho).hadMetadata.eq_of_stable (hstable _ hpath)]
      exact hread o ho
    · rw [ho] at hpath
      exact (Showed.of_readFrom (h o ho)).1.of_stable (hstable _ hpath)

end

end Machine
