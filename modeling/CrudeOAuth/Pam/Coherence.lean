import CrudeOAuth.Core.Jwt.Verify
import CrudeOAuth.Machine.Coherence
import CrudeOAuth.Pam.Cache

/-!
# Coherence of the cache

Whether what `cache::config` and `Config::verifier` return from the cache is what the
files say. The stamp of a file is compared with the clock only after the file was read, so
a change in the same tick and of the same size, made after the reading but before a
late look at the clock, goes unnoticed for good (`cache_coherence_counterexample`).

That apart, the cache is coherent: a value that is found was computed from what the file
was when the call statted it (`cache_coherent`). The condition on the runs is what it takes
(`exists_stale_hit`).
-/

namespace CrudeOAuth.Pam

open Rust Machine

variable {Jwk Key : Type} {jose : Jose Jwk Key} {tick : Nat}

/-- The states of the module. -/
abbrev State (Key : Type) := CacheState CacheKey CacheLock Stamp CallError (CacheValue Key)

/-- A stamp tells which version of a file it is of. -/
theorem cache_lawful (htick : tick ≤ settleTime) : (cache jose).Lawful tick where
  id_eq {m m'} h := by
    obtain ⟨hdev, hino, -⟩ := Stamp.mk.inj h
    cases hm : m.id
    cases hm' : m'.id
    simp_all
  ctime_eq {m m'} h := timespec_injective (Stamp.mk.inj h).2.2.2.2
  settled h := by
    obtain ⟨hstamp, hold⟩ := Stamp.settled_eq_some h
    exact ⟨hstamp, by omega⟩

/-- What the file gives for the key: for the configuration, its mode counts as well. -/
def ComputedFrom (jose : Jose Jwk Key) (file : File) : CacheKey → CacheValue Key → Prop
  | .config raw, .config args => ∃ path text, configPath raw = .ok (some path) ∧
    file.mode &&& 0o022 = 0 ∧ file.content = utf8 text ∧ parseConfig text path = .ok args
  | .verifier config, .verifier verifier => ∃ iss path text, config.args.source = .ok (iss, path) ∧
    file.content = utf8 text ∧ config.args.build jose iss text = .ok verifier
  | _, _ => False

/-- Every value found in the cache was computed from bytes, and for a configuration from a file
    with a mode, that are those of the file at the stat of the call. -/
def CoherentHits (jose : Jose Jwk Key) (s : State Key) : Prop :=
  ∀ tid key entry seen, s.threads tid = .done key (.hit entry (some seen)) →
    ∃ origin, entry.origin = some origin ∧ origin.content = seen.file.content ∧
      (∀ raw, key = .config raw → origin.metadata.mode = seen.file.mode) ∧
      ComputedFrom jose seen.file key entry.value

/-! ## A file that changes within a tick -/

namespace Fixture

def configRaw : List String := ["config=oauth.conf"]

def configId : FileId := ⟨2049, 12⟩

def first : Bytes := utf8 "oauthbearer_trusted_aud0: first\n"

/-- As long as `first`. -/
def second : Bytes := utf8 "oauthbearer_trusted_aud0: secnd\n"

/-- The file was changed at ten seconds. -/
def fs : FileSystem where
  files id := if id = configId then
      some { content := first, mode := 0o600, isFile := true, mtime := 10 ^ 10, ctime := 10 ^ 10 }
    else none
  links path := if path = "oauth.conf" then some configId else none

/-- The steps of a call of the thread, as far as they go. -/
def callSteps (tid steps : Nat) : List (Label CacheKey) :=
  .thread tid (.call (.config configRaw)) :: List.replicate steps (.thread tid .advance)

/-- A call reads the file; then the file is changed in the same tick, and the call looks at the
    clock only after three seconds. -/
def staleSteps : List (Label CacheKey) :=
  callSteps 0 5 ++ [.file (.write configId second), .clock (13 * 10 ^ 9)] ++
    List.replicate 2 (.thread 0 .advance) ++ callSteps 1 2

/-- A call that finds the file settled, and a second one. -/
def settledSteps : List (Label CacheKey) := .clock (13 * 10 ^ 9) :: callSteps 0 7 ++ callSteps 0 2

def safe (t : Taken (State Key) (Label CacheKey)) : Bool :=
  (match t.label with
    | .thread tid _ => tid == 0
    | _ => true) &&
  match t.before.threads 0 with
  | .toSample _ origin _ => (t.before.fs.files origin.metadata.id).all fun file =>
      origin.content == file.content && origin.metadata.mode == file.mode
  | _ => true

def hit (s : State Key) (tid : Nat) : Bool :=
  match s.threads tid with
  | .done _ (.hit _ (some _)) => true
  | _ => false

def stale (s : State Key) (tid : Nat) : Bool :=
  match s.threads tid with
  | .done _ (.hit entry (some seen)) => entry.origin.map Origin.content != some seen.file.content
  | _ => false

end Fixture

theorem coherentHits_of_coherent {s : State Key} (hcoherent : (cache jose).Coherent s)
    (hsound : (cache jose).Sound s) : CoherentHits jose s := by
  intro tid key entry seen hdone
  obtain ⟨origin, horigin, hcontent, hmode⟩ := hcoherent tid key entry seen hdone
  have hknows := hsound.threads tid
  rw [hdone] at hknows
  refine ⟨origin, horigin, hcontent, fun raw hkey => hmode (hkey ▸ rfl), ?_⟩
  cases key with
  | config raw =>
    obtain ⟨args, hvalue, -, hfile⟩ := computes_config hknows
    obtain ⟨hpath, -, hacceptable, text, htext, hparse⟩ := hfile origin horigin
    rw [hvalue]
    exact ⟨origin.path, text, hpath, hmode rfl ▸ hacceptable, hcontent ▸ htext, hparse⟩
  | verifier config =>
    obtain ⟨o, iss, text, verifier, ho, hsource, htext, hbuild, hvalue⟩ := computes_verifier hknows
    obtain rfl := Option.some.inj (ho.symm.trans horigin)
    rw [hvalue]
    exact ⟨iss, o.path, text, hsource, hcontent ▸ htext, hbuild⟩

/-- In every run in which a stamp that settles still stands for what was read, all values found
    in the cache are coherent with the files, in every state of the run. -/
theorem cache_coherent (htick : 0 < tick) (hlt : tick < settleTime) {fs : FileSystem} {clock : Nat}
    {tr : List (Taken (State Key) (Label CacheKey))} {s : State Key}
    (hrun : Run ((cache jose).Step tick) (.initial fs clock) tr s)
    (hsafe : ∀ t ∈ tr, (cache jose).SettlesSafely t.before t.label) :
    CoherentHits jose s ∧ ∀ t ∈ tr, CoherentHits jose t.before := by
  obtain ⟨hlast, hall⟩ := FileCache.coherent_of_run (cache_lawful hlt.le) htick hrun hsafe
  obtain ⟨hsound, hsounds⟩ := FileCache.sound_of_run hrun
  exact ⟨coherentHits_of_coherent hlast hsound,
    fun t ht => coherentHits_of_coherent (hall t ht) (hsounds t ht)⟩

/-- Where a stamp settles that does not stand for what was read, for a call that waits or for the
    file that the path of the key names, the run can go on to a value that is not coherent. -/
theorem exists_stale_hit {s : State Key} {tid : Nat} {key : CacheKey} {origin : Origin}
    {value : CacheValue Key} {stamp : Stamp} (hphase : s.threads tid = .toSample key origin value)
    (hsettled : Stamp.settled s.clock origin.metadata = some stamp) {file : File}
    (hno : ¬(cache jose).Matches key origin file)
    (h : (∃ tid' path, s.threads tid' = .toLookUp key (some { path, stamp, file })) ∨
      ∃ path id, (cache jose).path key = .ok (some path) ∧ s.fs.find path = some (id, file) ∧
        Stamp.of (file.metadata id) = stamp) :
    ∃ tr s', Run ((cache jose).Step tick) s tr s' ∧ ¬CoherentHits jose s' := by
  obtain ⟨tr, s', hrun, hincoherent⟩ := FileCache.exists_incoherent hphase hsettled hno h
  refine ⟨tr, s', hrun, fun hcoherent => hincoherent fun tid' key' entry seen hdone => ?_⟩
  obtain ⟨o, ho, hcontent, hmode, -⟩ := hcoherent tid' key' entry seen hdone
  refine ⟨o, ho, hcontent, fun huses => ?_⟩
  cases key' with
  | config raw => exact hmode raw rfl
  | verifier config => cases huses

/-- In a run of one thread, a stamp settles safely if the file is as it was read. -/
theorem settlesSafely_of_single {s : State Key} {label : Label CacheKey}
    (hidle : ∀ tid, tid ≠ 0 → s.threads tid = .idle)
    (hfile : ∀ key origin value file, s.threads 0 = .toSample key origin value →
      s.fs.files origin.metadata.id = some file → (cache jose).Matches key origin file) :
    (cache jose).SettlesSafely s label := by
  intro tid key origin value stamp _ hphase _
  obtain rfl : tid = 0 := by
    by_contra htid
    rw [hidle tid htid] at hphase
    cases hphase
  refine ⟨fun file hfs _ => hfile key origin value file hphase hfs, fun tid' seen hwaiting _ => ?_⟩
  by_cases htid : tid' = 0
  · rw [htid, hphase] at hwaiting
    cases hwaiting
  · rw [hidle tid' htid] at hwaiting
    cases hwaiting

/-- The second call for a file that has settled finds the configuration of the first. -/
theorem cache_coherent_fixture :
    ∃ (s : State (String × String)) (key : CacheKey) (entry : Entry Stamp (CacheValue (String × String)))
      (seen : Seen Stamp), s.threads 0 = .done key (.hit entry (some seen)) ∧
        ComputedFrom CrudeOAuth.Fixture.jose seen.file key entry.value := by
  have hrun : (exec ((cache CrudeOAuth.Fixture.jose).step (4 * 10 ^ 6))
      (.initial Fixture.fs (10 ^ 10)) Fixture.settledSteps).any
        (fun r => r.1.all Fixture.safe && Fixture.hit r.2 0) = true := by
    decide +kernel
  obtain ⟨⟨tr, s⟩, hexec, hcheck⟩ := (Option.any_eq_true _ _).1 hrun
  obtain ⟨hsafe, hhit⟩ := Bool.and_eq_true_iff.1 hcheck
  have hrun := Run.of_exec hexec
  have hidle : ∀ tid, tid ≠ 0 → ∀ t ∈ tr, t.before.threads tid = .idle := by
    intro tid htid
    refine threads_of_run hrun fun t ht act hlabel => ?_
    have hzero := (Bool.and_eq_true_iff.1 (List.all_eq_true.1 hsafe t ht)).1
    rw [hlabel] at hzero
    exact htid (beq_iff_eq.1 hzero)
  have hcoherent := cache_coherent (by decide) (by decide) hrun fun t ht =>
    settlesSafely_of_single (fun tid htid => hidle tid htid t ht) fun key origin value file hphase hfile => by
      have hread := (Bool.and_eq_true_iff.1 (List.all_eq_true.1 hsafe t ht)).2
      rw [hphase] at hread
      simp only [hfile, Option.all_some, Bool.and_eq_true, beq_iff_eq] at hread
      exact ⟨hread.1, fun _ => hread.2⟩
  unfold Fixture.hit at hhit
  split at hhit
  · rename_i key entry seen hphase
    obtain ⟨origin, -, -, -, hvalue⟩ := hcoherent.1 0 key entry seen hphase
    exact ⟨s, key, entry, seen, hphase, hvalue⟩
  · cases hhit

theorem cache_coherence_counterexample :
    ¬∀ (tick : Nat) (fs : FileSystem) (clock : Nat)
      (tr : List (Taken (State (String × String)) (Label CacheKey))) (s : State (String × String)),
      0 < tick → tick < settleTime → Run ((cache CrudeOAuth.Fixture.jose).Step tick) (.initial fs clock) tr s →
        CoherentHits CrudeOAuth.Fixture.jose s := by
  intro h
  have hstale : (exec ((cache CrudeOAuth.Fixture.jose).step (4 * 10 ^ 6))
      (.initial Fixture.fs (10 ^ 10)) Fixture.staleSteps).any (fun r => Fixture.stale r.2 1) = true := by
    decide +kernel
  obtain ⟨⟨tr, s⟩, hexec, hstale⟩ := (Option.any_eq_true _ _).1 hstale
  have hcoherent := h _ _ _ tr s (by decide) (by decide) (Run.of_exec hexec)
  unfold Fixture.stale at hstale
  split at hstale
  · rename_i key entry seen hphase
    obtain ⟨origin, horigin, hcontent, -⟩ := hcoherent 1 key entry seen hphase
    simp [horigin, hcontent] at hstale
  · cases hstale

end CrudeOAuth.Pam
