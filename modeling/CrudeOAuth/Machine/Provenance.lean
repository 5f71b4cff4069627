import CrudeOAuth.Machine.FileCache

/-!
# Where values come from

In a run of a cache, every value that is kept or returned was computed from a file that was
found at the path of its key in this run, and that had the metadata, and later the content,
of the origin of the value (`ReadFrom`). Each value has a number of its own, by which it is
told from all others of the run (`Distinct`), and was asked for (`Called`).

All this is kept by every step after any run (`FileCache.traced_of_run`,
`FileCache.distinct_of_run`, `FileCache.called_of_run`).
-/

namespace Machine

variable {κ ℓ τ ε α : Type}

/-- The steps of a run of a cache. -/
abbrev History (κ ℓ τ ε α : Type) := List (Taken (CacheState κ ℓ τ ε α) (Label κ))

/-! ## Readings -/

/-- The file was found at the path. -/
def FoundAt (tr : History κ ℓ τ ε α) (path : String) (id : FileId) : Prop :=
  ∃ pre t post file, tr = pre ++ t :: post ∧ t.before.fs.find path = some (id, file)

/-- A file that was found at the path had the metadata after that. -/
def HadMetadata (tr : History κ ℓ τ ε α) (path : String) (metadata : Metadata) : Prop :=
  ∃ pre t post file, tr = pre ++ t :: post ∧ FoundAt pre path metadata.id ∧
    t.before.fs.files metadata.id = some file ∧ file.metadata metadata.id = metadata

/-- A file that was found at the path had the metadata of the origin after that, and then its
    content. -/
def ReadFrom (tr : History κ ℓ τ ε α) (origin : Origin) : Prop :=
  ∃ pre t post file, tr = pre ++ t :: post ∧ HadMetadata pre origin.path origin.metadata ∧
    t.before.fs.files origin.metadata.id = some file ∧ file.content = origin.content

variable {tr : History κ ℓ τ ε α} {more : History κ ℓ τ ε α} {path : String} {origin : Origin}

theorem FoundAt.append {id : FileId} (h : FoundAt tr path id) : FoundAt (tr ++ more) path id := by
  obtain ⟨pre, t, post, file, rfl, hfind⟩ := h
  exact ⟨pre, t, post ++ more, file, by simp, hfind⟩

theorem HadMetadata.append {metadata : Metadata} (h : HadMetadata tr path metadata) :
    HadMetadata (tr ++ more) path metadata := by
  obtain ⟨pre, t, post, file, rfl, hfound, hfile⟩ := h
  exact ⟨pre, t, post ++ more, file, by simp, hfound, hfile⟩

theorem ReadFrom.append (h : ReadFrom tr origin) : ReadFrom (tr ++ more) origin := by
  obtain ⟨pre, t, post, file, rfl, hmetadata, hfile⟩ := h
  exact ⟨pre, t, post ++ more, file, by simp, hmetadata, hfile⟩

/-- The origin, where there is one, was read. -/
def OriginRead (tr : History κ ℓ τ ε α) (origin : Option Origin) : Prop :=
  ∀ o, origin = some o → ReadFrom tr o

/-- What was found of the file in a phase of a call. -/
def Phase.Traced (tr : History κ ℓ τ ε α) : Phase κ τ ε α → Prop
  | .toFstat _ path id => FoundAt tr path id
  | .toRead _ path metadata => HadMetadata tr path metadata
  | .toSample _ origin _ => ReadFrom tr origin
  | .toStore _ _ origin _ => OriginRead tr origin
  | .done _ (.hit entry _) | .done _ (.made entry) => OriginRead tr entry.origin
  | .idle | .toStat _ _ | .toLookUp _ _ | .toOpen _ _ | .done _ (.failed _) | .done _ .panicked => True

theorem Phase.Traced.append {phase : Phase κ τ ε α} (h : phase.Traced tr) : phase.Traced (tr ++ more) := by
  cases phase with
  | toFstat => exact FoundAt.append h
  | toRead => exact HadMetadata.append h
  | toSample => exact ReadFrom.append h
  | toStore => exact fun o ho => (h o ho).append
  | done key result =>
    cases result with
    | hit | made => exact fun o ho => (h o ho).append
    | failed | panicked => trivial
  | _ => trivial

/-- What the threads found, and the values in the cache come from, was read in the run. -/
structure Traced (tr : History κ ℓ τ ε α) (s : CacheState κ ℓ τ ε α) : Prop where
  threads : ∀ tid, (s.threads tid).Traced tr
  cells : ∀ key entry, s.cells key = some entry → OriginRead tr entry.origin

section

variable {cache : FileCache κ ℓ τ ε α} {tick : Nat} {s s' : CacheState κ ℓ τ ε α} {label : Label κ}
  {phase phase' : Phase κ τ ε α} {key : κ} {entry : Entry τ α} [DecidableEq τ]

/-- What a thread finds in a step was so in the state before the step. -/
theorem traced_of_moves (h : cache.Moves s phase phase') (hphase : phase.Traced tr)
    (hcells : ∀ key entry, s.cells key = some entry → OriginRead tr entry.origin) :
    phase'.Traced (tr ++ [⟨s, label, s'⟩]) := by
  cases h with
  | start =>
    unfold FileCache.start
    split <;> trivial
  | hit hentry => exact fun o ho => (hcells _ _ hentry o ho).append
  | compute => exact fun o ho => by cases ho
  | opened hfind => exact ⟨tr, _, [], _, rfl, hfind⟩
  | fstat hfile => exact ⟨tr, _, [], _, rfl, hphase, hfile, rfl⟩
  | read hfile => exact ⟨tr, _, [], _, rfl, hphase, hfile, rfl⟩
  | sample =>
    rintro o ⟨⟩
    exact ReadFrom.append hphase
  | store => exact fun o ho => (hphase o ho).append
  | stat | miss | failed | panicked => trivial

variable [DecidableEq κ] [DecidableEq ℓ]

theorem traced_of_step (h : cache.Step tick s label s') (hs : Traced tr s) :
    Traced (tr ++ [⟨s, label, s'⟩]) s' := by
  have hcells : ∀ key entry, s.cells key = some entry → OriginRead (tr ++ [⟨s, label, s'⟩]) entry.origin :=
    fun key entry hentry o ho => (hs.cells key entry hentry o ho).append
  rcases step_cases h with ⟨fs, clock, rfl⟩ | ⟨tid, act, phase, rfl, hnext, rfl⟩
  · exact ⟨fun tid => (hs.threads tid).append, hcells⟩
  · refine ⟨fun tid' => ?_, fun key entry hentry => ?_⟩
    · rw [enter_threads]
      split
      · exact traced_of_moves (moves_of_next hnext) (hs.threads tid) hs.cells
      · rw [commit_threads]
        exact (hs.threads tid').append
    · rw [enter_cells] at hentry
      rcases commit_cells hentry with hentry | ⟨stamp, origin, value, hphase, rfl⟩
      · exact hcells _ _ hentry
      · -- What is stored is what the thread had read.
        have hread := hs.threads tid
        rw [hphase] at hread
        exact fun o ho => (hread o ho).append

/-- In every run, every value that is kept or returned comes from a reading of the run. -/
theorem FileCache.traced_of_run {fs : FileSystem} {clock : Nat}
    (hrun : Run (cache.Step tick) (CacheState.initial fs clock) tr s) : Traced tr s := by
  have h0 : Traced [] (CacheState.initial fs clock : CacheState κ ℓ τ ε α) :=
    ⟨fun _ => trivial, fun _ _ h => by cases h⟩
  exact hrun.history h0 fun _ _ _ _ _ hs h => traced_of_step h hs

end

/-! ## Numbers -/

/-- The value is kept for the key, or was returned by the last call of a thread for it. -/
def Holds (s : CacheState κ ℓ τ ε α) (key : κ) (entry : Entry τ α) : Prop :=
  s.cells key = some entry ∨ ∃ tid, (∃ seen, s.threads tid = .done key (.hit entry seen)) ∨
    s.threads tid = .done key (.made entry)

theorem FileCache.Sound.of_holds {cache : FileCache κ ℓ τ ε α} {s : CacheState κ ℓ τ ε α} (h : cache.Sound s)
    {key : κ} {entry : Entry τ α} (hholds : Holds s key entry) : cache.Computes key entry.origin entry.value := by
  rcases hholds with hcell | ⟨tid, hdone⟩
  · exact h.cells key entry hcell
  · have hknows := h.threads tid
    rcases hdone with ⟨seen, hdone⟩ | hdone <;> rw [hdone] at hknows <;> exact hknows

theorem Traced.of_holds {s : CacheState κ ℓ τ ε α} (h : Traced tr s) {key : κ} {entry : Entry τ α}
    (hholds : Holds s key entry) : OriginRead tr entry.origin := by
  rcases hholds with hcell | ⟨tid, hdone⟩
  · exact h.cells key entry hcell
  · have htraced := h.threads tid
    rcases hdone with ⟨seen, hdone⟩ | hdone <;> rw [hdone] at htraced <;> exact htraced

/-- It is so at the end of the run, or was before a step of it. -/
def HeldIn (tr : History κ ℓ τ ε α) (s : CacheState κ ℓ τ ε α) (key : κ) (entry : Entry τ α) : Prop :=
  (∃ t ∈ tr, Holds t.before key entry) ∨ Holds s key entry

/-- The values of a run are told apart by their numbers, which are counted. -/
structure Distinct (tr : History κ ℓ τ ε α) (s : CacheState κ ℓ τ ε α) : Prop where
  counted : ∀ key entry, HeldIn tr s key entry → entry.serial < s.serial
  distinct : ∀ key entry key' entry', HeldIn tr s key entry → HeldIn tr s key' entry' →
    entry.serial = entry'.serial → key = key' ∧ entry = entry'

/-- The value that a thread is about to store. -/
def CacheState.making (s : CacheState κ ℓ τ ε α) : Phase κ τ ε α → Option (κ × Entry τ α)
  | .toStore key stamp origin value => some (key, { stamp, serial := s.serial, value, origin })
  | _ => none

section

variable {cache : FileCache κ ℓ τ ε α} {tick : Nat} {s s' : CacheState κ ℓ τ ε α} {label : Label κ}
  {phase phase' : Phase κ τ ε α} {key : κ} {entry : Entry τ α}

theorem serial_of_making {made : κ × Entry τ α} (h : s.making phase = some made) :
    made.2.serial = s.serial := by
  cases phase with
  | toStore =>
    obtain rfl := Option.some.inj h
    rfl
  | _ => cases h

section Commit

variable [DecidableEq κ]

theorem commit_serial : (s.commit phase).serial = s.serial + (s.making phase).toList.length := by
  cases phase <;> rfl

theorem cells_or_making (h : (s.commit phase).cells key = some entry) :
    s.cells key = some entry ∨ s.making phase = some (key, entry) := by
  rcases commit_cells h with h | ⟨stamp, origin, value, rfl, rfl⟩
  · exact .inl h
  · exact .inr rfl

end Commit

variable [DecidableEq τ]

/-- A value that a thread comes to return was kept, or the thread was about to store it. -/
theorem cells_or_making_of_moves (h : cache.Moves s phase phase')
    (hdone : (∃ seen, phase' = .done key (.hit entry seen)) ∨ phase' = .done key (.made entry)) :
    s.cells key = some entry ∨ s.making phase = some (key, entry) := by
  rcases hdone with ⟨seen, rfl⟩ | rfl
  · generalize hphase' : Phase.done key (.hit entry seen) = phase' at h
    cases h with
    | start =>
      unfold FileCache.start at hphase'
      split at hphase' <;> cases hphase'
    | hit hentry =>
      cases hphase'
      exact .inl hentry
    | _ => cases hphase'
  · generalize hphase' : Phase.done key (.made entry) = phase' at h
    cases h with
    | start =>
      unfold FileCache.start at hphase'
      split at hphase' <;> cases hphase'
    | store =>
      cases hphase'
      exact .inr rfl
    | _ => cases hphase'

variable [DecidableEq κ] [DecidableEq ℓ]

/-- A step makes one value at most, which has the number that is next. -/
theorem holds_of_step (h : cache.Step tick s label s') : s.serial ≤ s'.serial ∧
    ∃ new : Option (κ × Entry τ α), (∀ made, new = some made → made.2.serial = s.serial ∧ s.serial < s'.serial) ∧
      ∀ key entry, Holds s' key entry → Holds s key entry ∨ new = some (key, entry) := by
  rcases step_cases h with ⟨fs, clock, rfl⟩ | ⟨tid, act, phase, rfl, hnext, rfl⟩
  · exact ⟨Nat.le_refl _, none, by simp, fun key entry h => .inl h⟩
  · have hserial : ((s.commit (s.threads tid)).enter cache tid phase).serial =
        s.serial + (s.making (s.threads tid)).toList.length := commit_serial
    refine ⟨by omega, s.making (s.threads tid), fun made hmade => ⟨serial_of_making hmade, ?_⟩, ?_⟩
    · rw [hserial, hmade]
      exact Nat.lt_succ_self _
    · rintro key entry (hcell | ⟨tid', hdone⟩)
      · exact (cells_or_making hcell).imp_left .inl
      · rw [enter_threads] at hdone
        split at hdone
        · exact (cells_or_making_of_moves (moves_of_next hnext) hdone).imp_left .inl
        · rw [commit_threads] at hdone
          exact .inl (.inr ⟨tid', hdone⟩)

theorem distinct_of_step (h : cache.Step tick s label s') (hs : Distinct tr s) :
    Distinct (tr ++ [⟨s, label, s'⟩]) s' := by
  obtain ⟨hle, new, hnew, hholds⟩ := holds_of_step h
  have hheld : ∀ key entry, HeldIn (tr ++ [⟨s, label, s'⟩]) s' key entry →
      HeldIn tr s key entry ∨ new = some (key, entry) := by
    rintro key entry (⟨t, ht, hbefore⟩ | hafter)
    · rcases List.mem_append.1 ht with ht | ht
      · exact .inl (.inl ⟨t, ht, hbefore⟩)
      · obtain rfl := List.mem_singleton.1 ht
        exact .inl (.inr hbefore)
    · exact (hholds key entry hafter).imp_left .inr
  refine ⟨fun key entry hkey => ?_, fun key entry key' entry' hkey hkey' heq => ?_⟩
  · rcases hheld key entry hkey with hold | hmade
    · exact Nat.lt_of_lt_of_le (hs.counted key entry hold) hle
    · obtain ⟨hserial, hlt⟩ := hnew _ hmade
      exact hserial ▸ hlt
  · rcases hheld key entry hkey with hold | hmade <;> rcases hheld key' entry' hkey' with hold' | hmade'
    · exact hs.distinct key entry key' entry' hold hold' heq
    · -- The number of the new value was not given before.
      have hlt := hs.counted key entry hold
      have hserial := (hnew _ hmade').1
      dsimp only at hserial
      omega
    · have hlt := hs.counted key' entry' hold'
      have hserial := (hnew _ hmade).1
      dsimp only at hserial
      omega
    · exact Prod.mk.inj (Option.some.inj (hmade.symm.trans hmade'))

/-- In every run, the values are told apart by their numbers. -/
theorem FileCache.distinct_of_run {fs : FileSystem} {clock : Nat}
    (hrun : Run (cache.Step tick) (CacheState.initial fs clock) tr s) : Distinct tr s := by
  have hnone : ∀ key entry, ¬HeldIn [] (CacheState.initial fs clock : CacheState κ ℓ τ ε α) key entry := by
    rintro key entry (⟨t, ht, -⟩ | hcell | ⟨tid, ⟨seen, hdone⟩ | hdone⟩)
    · cases ht
    · cases hcell
    · cases hdone
    · cases hdone
  have h0 : Distinct [] (CacheState.initial fs clock : CacheState κ ℓ τ ε α) :=
    ⟨fun key entry h => absurd h (hnone key entry), fun key entry _ _ h => absurd h (hnone key entry)⟩
  exact hrun.history h0 fun _ _ _ _ _ hs h => distinct_of_step h hs

end

/-! ## Calls -/

/-- The key that a thread works on, or has worked on last. -/
def Phase.key : Phase κ τ ε α → Option κ
  | .idle => none
  | .toStat key _ | .toLookUp key _ | .toOpen key _ | .toFstat key _ _ | .toRead key _ _
  | .toSample key _ _ | .toStore key _ _ _ | .done key _ => some key

/-- A thread made a call for the key. -/
def Called (tr : History κ ℓ τ ε α) (key : κ) : Prop :=
  ∃ t ∈ tr, ∃ tid, t.label = .thread tid (.call key)

/-- The keys that are in use were called. -/
structure KeysCalled (tr : History κ ℓ τ ε α) (s : CacheState κ ℓ τ ε α) : Prop where
  threads : ∀ tid key, (s.threads tid).key = some key → Called tr key
  cells : ∀ key entry, s.cells key = some entry → Called tr key

theorem Called.append {key : κ} (h : Called tr key) : Called (tr ++ more) key := by
  obtain ⟨t, ht, h⟩ := h
  exact ⟨t, List.mem_append_left _ ht, h⟩

theorem KeysCalled.of_holds {s : CacheState κ ℓ τ ε α} (h : KeysCalled tr s) {key : κ} {entry : Entry τ α}
    (hholds : Holds s key entry) : Called tr key := by
  rcases hholds with hcell | ⟨tid, ⟨seen, hdone⟩ | hdone⟩
  · exact h.cells key entry hcell
  · exact h.threads tid key (hdone ▸ rfl)
  · exact h.threads tid key (hdone ▸ rfl)

section

variable {cache : FileCache κ ℓ τ ε α} {tick : Nat} {s s' : CacheState κ ℓ τ ε α} {label : Label κ}
  {phase phase' : Phase κ τ ε α} {key : κ} {act : Act κ}

theorem key_start : (cache.start key).key = some key := by
  unfold FileCache.start
  split <;> rfl

theorem key_afterLoad {outcome : Rust.Outcome ε α} {next : α → Phase κ τ ε α}
    (hnext : ∀ value, (next value).key = some key) :
    (FileCache.afterLoad key outcome next).key = some key := by
  unfold FileCache.afterLoad
  split
  · exact hnext _
  · rfl
  · rfl

variable [DecidableEq τ]

/-- A thread goes on with its key until it makes the next call. -/
theorem key_of_next (h : cache.next s act phase = some phase') (hkey : phase'.key = some key) :
    act = .call key ∨ phase.key = some key := by
  unfold FileCache.next at h
  split at h
  case h_1 | h_2 =>
    obtain rfl := Option.some.inj h
    rw [key_start] at hkey
    exact .inl (Option.some.inj hkey ▸ rfl)
  case h_4 =>
    split at h
    · cases h
    · split at h
      · obtain rfl := Option.some.inj h
        exact .inr hkey
      · split at h
        · obtain rfl := Option.some.inj h
          exact .inr hkey
        · obtain rfl := Option.some.inj h
          rw [key_afterLoad fun _ => rfl] at hkey
          exact .inr hkey
  case h_6 =>
    obtain ⟨file, -, rfl⟩ := Option.map_eq_some_iff.1 h
    split at hkey <;> exact .inr hkey
  case h_7 =>
    obtain ⟨file, -, rfl⟩ := Option.map_eq_some_iff.1 h
    rw [key_afterLoad fun _ => rfl] at hkey
    exact .inr hkey
  case h_3 | h_5 =>
    obtain ⟨_, -, rfl⟩ := Option.map_eq_some_iff.1 h
    exact .inr hkey
  case h_14 => cases h
  all_goals
    obtain rfl := Option.some.inj h
    exact .inr hkey

variable [DecidableEq κ] [DecidableEq ℓ]

theorem keysCalled_of_step (h : cache.Step tick s label s') (hs : KeysCalled tr s) :
    KeysCalled (tr ++ [⟨s, label, s'⟩]) s' := by
  rcases step_cases h with ⟨fs, clock, rfl⟩ | ⟨tid, act, phase, rfl, hnext, rfl⟩
  · exact ⟨fun tid key hkey => (hs.threads tid key hkey).append,
      fun key entry hcell => (hs.cells key entry hcell).append⟩
  · refine ⟨fun tid' key hkey => ?_, fun key entry hentry => ?_⟩
    · rw [enter_threads] at hkey
      split at hkey
      · rcases key_of_next hnext hkey with rfl | hold
        · exact ⟨_, List.mem_append_right _ (List.mem_singleton_self _), tid, rfl⟩
        · exact (hs.threads tid key hold).append
      · rw [commit_threads] at hkey
        exact (hs.threads tid' key hkey).append
    · rw [enter_cells] at hentry
      rcases commit_cells hentry with hentry | ⟨stamp, origin, value, hphase, -⟩
      · exact (hs.cells key entry hentry).append
      · exact (hs.threads tid key (hphase ▸ rfl)).append

/-- In every run, the values that are kept or returned were called for. -/
theorem FileCache.called_of_run {fs : FileSystem} {clock : Nat}
    (hrun : Run (cache.Step tick) (CacheState.initial fs clock) tr s) {entry : Entry τ α}
    (h : HeldIn tr s key entry) : Called tr key := by
  have h0 : KeysCalled [] (CacheState.initial fs clock : CacheState κ ℓ τ ε α) :=
    ⟨fun _ _ h => (by cases h), fun _ _ h => (by cases h)⟩
  have hall : ∀ {tr : History κ ℓ τ ε α} {s}, Run (cache.Step tick) (CacheState.initial fs clock) tr s → KeysCalled tr s :=
    fun hrun => hrun.history h0 fun _ _ _ _ _ hs h => keysCalled_of_step h hs
  rcases h with ⟨t, ht, hbefore⟩ | hlast
  · obtain ⟨pre, post, rfl⟩ := List.append_of_mem ht
    exact ((hall hrun.of_append_cons.1).of_holds hbefore).append
  · exact (hall hrun).of_holds hlast

end

end Machine
