import CrudeOAuth.Machine.Current
import CrudeOAuth.Pam.Coherence

/-!
# The module without its caches

What `cache::config` and `Config::verifier` compute if nothing is kept: the configuration
for some arguments (`loadConfig`), and the verifier of a configuration
(`PamArgs.verifier`), each read from the file that it is read from.

The caches make no difference to what is returned (`cache_transparent`), whatever other
threads do in the meantime, as long as the file itself is left alone.
-/

namespace CrudeOAuth.Pam

open Rust Machine

variable {Jwk Key : Type} {jose : Jose Jwk Key} {tick : Nat}

/-- `cache::config` without the cache, where these are the files. -/
def loadConfig (raw : List String) (files : String → FileId × File) : Outcome PamError PamArgs := do
  match ← configPath raw with
  | none => parseInlineArgs raw
  | some path =>
    match acceptConfigFile path ((files path).2.metadata (files path).1) with
    | .ok () => readConfigFile path (files path).2.content
    | .error e => .err e

/-- `Config::verifier` without the cache, where these are the files. -/
def loadVerifier (jose : Jose Jwk Key) (args : PamArgs) (files : String → FileId × File) :
    Except CacheError (JwtVerifier Key) :=
  args.verifier jose fun path => readToString (files path).2.content

variable {files : String → FileId × File}

theorem loadedFrom_of_loadConfig {raw : List String} {args : PamArgs} (h : loadConfig raw files = .ok args) :
    args.LoadedFrom raw := by
  obtain ⟨path, hpath, h⟩ := Outcome.bind_eq_ok.1 h
  cases path with
  | none => exact .inl ⟨hpath, h⟩
  | some path =>
    dsimp only at h
    split at h
    · obtain ⟨text, -, hparse⟩ := readConfigFile_eq_ok.1 h
      exact .inr ⟨path, text, hpath, hparse⟩
    · cases h

theorem plain_config (raw : List String) (files : String → FileId × File) :
    (cache jose).plain (.config raw) files = ofConfig .config (loadConfig raw files) := by
  unfold FileCache.plain loadConfig
  dsimp only [cache]
  rcases hpath : configPath raw with path | e | _
  · cases path with
    | none => rfl
    | some path =>
      simp only [ofConfig, Outcome.ok_bind]
      cases acceptConfigFile path ((files path).2.metadata (files path).1) <;> rfl
  · rfl
  · rfl

theorem plain_verifier (config : ConfigRef) (files : String → FileId × File) :
    (cache jose).plain (.verifier config) files = ofVerifier .verifier (loadVerifier jose config.args files) := by
  unfold FileCache.plain loadVerifier PamArgs.verifier
  dsimp only [cache]
  rcases hsource : config.args.source with e | ⟨iss, path⟩
  · rfl
  · simp only [ofVerifier, readVerifier, hsource, except_ok_bind]

/-- Whether a file is accepted depends on its mode only, if it is a regular one. -/
theorem accept_of_mode {key : CacheKey} {path : String} {metadata : Metadata} {id : FileId} {file : File}
    (hfile : file.isFile = true) (haccept : (cache jose).accept key path metadata = .ok ())
    (hmode : (cache jose).usesMode key = true → file.mode = metadata.mode) :
    (cache jose).accept key path (file.metadata id) = .ok () := by
  cases key with
  | config raw =>
    obtain ⟨-, hwritable⟩ := acceptConfigFile_eq_ok.1 (mapError_eq_ok.1 haccept)
    refine mapError_eq_ok.2 (acceptConfigFile_eq_ok.2 ⟨hfile, ?_⟩)
    rw [← hwritable, ← hmode rfl]
    rfl
  | verifier config => rfl

/-- In the runs in which a stamp that settles still stands for what was read, a call returns what
    is computed without the caches, if the file that it reads is a regular one and stays as it is
    during the call, and no call of the operating system fails. -/
theorem cache_transparent (htick : 0 < tick) (hlt : tick < settleTime) {fs : FileSystem} {clock : Nat}
    {tr : List (Taken (State Key) (Label CacheKey))} {s : State Key}
    (hrun : Run ((cache jose).Step tick) (.initial fs clock) tr s)
    (hsafe : ∀ t ∈ tr, (cache jose).SettlesSafely t.before t.label) {tid : Nat} {key : CacheKey}
    {result : Result Stamp CallError (CacheValue Key)} (hdone : s.threads tid = .done key result)
    (hfile : ∀ path, (files path).2.isFile = true)
    (hstable : ∀ path, (cache jose).path key = .ok (some path) →
      ∀ t ∈ lastCall tid tr, t.before.fs.find path = some (files path))
    (hfault : ¬Faulted tid (lastCall tid tr)) :
    (∀ raw, key = .config raw → result.outcome = ofConfig .config (loadConfig raw files)) ∧
    ∀ config, key = .verifier config →
      result.outcome = ofVerifier .verifier (loadVerifier jose config.args files) := by
  have hplain := FileCache.transparent_of_run (cache_lawful hlt.le) htick hrun hsafe hdone hstable
    (fun path _ => accept_of_mode (hfile path)) hfault
  constructor
  · rintro raw rfl
    rw [hplain, plain_config]
  · rintro config rfl
    rw [hplain, plain_verifier]

namespace Fixture

/-- A run of the first thread only, in which stamps settle safely. -/
theorem settlesSafely {s s' : State (String × String)} {tr : List (Taken (State (String × String)) (Label CacheKey))}
    (hrun : Run ((cache CrudeOAuth.Fixture.jose).Step tick) s tr s') (hidle : ∀ tid, tid ≠ 0 → s.threads tid = .idle)
    (hsafe : tr.all safe = true) : ∀ t ∈ tr, (cache CrudeOAuth.Fixture.jose).SettlesSafely t.before t.label := by
  have hothers : ∀ tid, tid ≠ 0 → ∀ t ∈ tr, t.before.threads tid = .idle := by
    intro tid htid t ht
    rw [threads_of_run hrun (fun t ht act hlabel => ?_) t ht, hidle tid htid]
    have hzero := (Bool.and_eq_true_iff.1 (List.all_eq_true.1 hsafe t ht)).1
    rw [hlabel] at hzero
    exact htid (beq_iff_eq.1 hzero)
  refine fun t ht => settlesSafely_of_single (fun tid htid => hothers tid htid t ht)
    fun key origin value file hphase hfile => ?_
  have hread := (Bool.and_eq_true_iff.1 (List.all_eq_true.1 hsafe t ht)).2
  rw [hphase] at hread
  simp only [hfile, Option.all_some, Bool.and_eq_true, beq_iff_eq] at hread
  exact ⟨hread.1, fun _ => hread.2⟩

/-- The `config=` file as it is at first. -/
def configFile : File :=
  { content := first, mode := 0o600, isFile := true, mtime := 10 ^ 10, ctime := 10 ^ 10 }

/-- The file is as it is at first, and no call of the operating system fails. -/
def untouched (t : Taken (State (String × String)) (Label CacheKey)) : Bool :=
  t.before.fs.find "oauth.conf" == some (configId, configFile) &&
  match t.label with
  | .thread _ (.fail _) => false
  | _ => true

end Fixture

/-- The second call, which finds the configuration of the first, returns what the file says. -/
theorem cache_transparent_fixture :
    ∃ (s : State (String × String)) (entry : Entry Stamp (CacheValue (String × String))) (seen : Seen Stamp),
      s.threads 0 = .done (.config Fixture.configRaw) (.hit entry (some seen)) ∧
        Outcome.ok entry.value = ofConfig .config
          (loadConfig Fixture.configRaw fun _ => (Fixture.configId, Fixture.configFile)) := by
  have hrun : (exec ((cache CrudeOAuth.Fixture.jose).step (4 * 10 ^ 6))
      (.initial Fixture.fs (10 ^ 10)) Fixture.settledSteps).any (fun r => r.1.all Fixture.safe &&
        r.1.all Fixture.untouched && Fixture.hit r.2 0 &&
          (r.2.threads 0).key == some (.config Fixture.configRaw)) = true := by
    decide +kernel
  obtain ⟨⟨tr, s⟩, hexec, hcheck⟩ := (Option.any_eq_true _ _).1 hrun
  simp only [Bool.and_eq_true] at hcheck
  obtain ⟨⟨⟨hsafe, huntouched⟩, hhit⟩, hkey⟩ := hcheck
  have hrun := Run.of_exec hexec
  unfold Fixture.hit at hhit
  split at hhit
  · rename_i key entry seen hdone
    rw [hdone] at hkey
    obtain rfl := Option.some.inj (beq_iff_eq.1 hkey)
    have huntouched : ∀ t ∈ lastCall 0 tr, Fixture.untouched t = true := fun t ht =>
      List.all_eq_true.1 huntouched t ((since_suffix _ tr).subset ht)
    refine ⟨s, entry, seen, hdone, (cache_transparent (by decide) (by decide) hrun
      (Fixture.settlesSafely hrun (fun _ _ => rfl) hsafe) hdone (fun _ => rfl) (fun path hpath t ht => ?_) ?_).1 _ rfl⟩
    · obtain rfl : path = "oauth.conf" := by
        have heq : (cache CrudeOAuth.Fixture.jose).path (.config Fixture.configRaw) = .ok (some "oauth.conf") := by
          decide +kernel
        exact Option.some.inj (Outcome.ok.inj (hpath.symm.trans heq))
      exact beq_iff_eq.1 (Bool.and_eq_true_iff.1 (huntouched t ht)).1
    · rintro ⟨t, ht, e, hlabel⟩
      have hno := (Bool.and_eq_true_iff.1 (huntouched t ht)).2
      rw [hlabel] at hno
      cases hno
  · cases hhit

end CrudeOAuth.Pam
