import CrudeOAuth.Core.Jwt.KeyBinding
import CrudeOAuth.Pam.Module

/-!
# What authentications answer

In every run of the module, an authentication answers what `authenticate` does with the
options and the verifier that the caches have answered it, at a time of the authentication;
they were read from their files in the run (`answer_of_run`).

In the runs in which stamps settle safely, success takes options and keys that the files had
while the authentication was under way (`success_of_run`), so a key is of no use once it was
taken out of its file. And if the files stay as they are, the answer is that of the logic
without any cache (`plain_of_run`).
-/

namespace CrudeOAuth.Pam

open Rust Machine

variable {Jwk Key : Type} {jose : Jose Jwk Key} {tick : Nat} {fs : FileSystem} {clock : Nat}
  {tr : ModuleHistory Key} {m : Module Key} {tid : Nat}

/-! ## Where options and keys come from -/

/-- The options are those of the arguments, or were read from the file that these select. -/
def OptionsRead (tr : PamHistory Key) (raw : List String) (args : PamArgs) : Prop :=
  (configPath raw = .ok none ∧ parseInlineArgs raw = .ok args) ∨
    ∃ path, configPath raw = .ok (some path) ∧ ReadConfig tr path args

/-- The options are those of the arguments, or of a text that the file that these select had
    while it was there, and only its owner could write it. -/
def OptionsShown (tr : PamHistory Key) (raw : List String) (args : PamArgs) : Prop :=
  (configPath raw = .ok none ∧ parseInlineArgs raw = .ok args) ∨
    ∃ path id text, configPath raw = .ok (some path) ∧ parseConfig text path = .ok args ∧
      Showed tr path id (fun file => file.content = utf8 text) ∧
        Showed tr path id fun file => file.mode &&& 0o022 = 0

/-- The verifier is built under the policy of the options, of a text that the file of the keys had
    while it was there. -/
def KeysShown (jose : Jose Jwk Key) (tr : PamHistory Key) (args : PamArgs) (verifier : JwtVerifier Key) : Prop :=
  ∃ iss path id text, args.iss = some iss ∧ args.jwks = some path ∧
    Showed tr path id (fun file => file.content = utf8 text) ∧
      JwtVerifier.fromJwksJson jose (args.policy iss) text = .ok verifier

section

variable {m₁ : Module Key} {raw : List String} {config : ConfigRef} {result : Result Stamp CallError (CacheValue Key)}

theorem optionsRead_of_got (hgot : Got tr tid m₁ (.config raw) result)
    (hrun : Run (Module.Step jose tick) (.initial fs clock) tr m) (h : returnedConfig result = .ok config) :
    config.args.LoadedFrom raw ∧ OptionsRead (cacheHistory tr) raw config.args := by
  obtain ⟨pre, hcaches, hdone, hpre, -⟩ := hgot.run hrun
  obtain ⟨entry, hentry, -, hvalue⟩ := returnedConfig_eq_ok.1 h
  obtain ⟨hcomputes, horigin⟩ := computes_of_done hcaches hdone hentry
  constructor
  · obtain ⟨args, hvalue', hloaded, -⟩ := computes_config hcomputes
    rw [CacheValue.config.inj (hvalue.symm.trans hvalue')]
    exact hloaded
  · obtain ⟨args, hvalue', hread⟩ := readConfig_of_computes hcomputes (horigin.extend hpre)
    rw [CacheValue.config.inj (hvalue.symm.trans hvalue')]
    exact hread

theorem builtFrom_of_got (hgot : Got tr tid m₁ (.verifier config) result)
    (hrun : Run (Module.Step jose tick) (.initial fs clock) tr m) {verifier : JwtVerifier Key}
    (h : returnedVerifier result = some (.ok verifier)) : BuiltFrom jose (cacheHistory tr) config.args verifier := by
  obtain ⟨pre, hcaches, hdone, hpre, -⟩ := hgot.run hrun
  obtain ⟨entry, hentry, hvalue⟩ := returnedVerifier_eq_ok.1 h
  obtain ⟨hcomputes, horigin⟩ := computes_of_done hcaches hdone hentry
  obtain ⟨verifier', hvalue', hbuilt⟩ := builtFrom_of_computes hcomputes (horigin.extend hpre)
  rw [CacheValue.verifier.inj (hvalue.symm.trans hvalue')]
  exact hbuilt

theorem optionsShown_of_got (htick : 0 < tick) (hlt : tick < settleTime) (hgot : Got tr tid m₁ (.config raw) result)
    (hrun : Run (Module.Step jose tick) (.initial fs clock) tr m)
    (hsafe : ∀ t ∈ cacheHistory tr, (cache jose).SettlesSafely t.before t.label)
    (h : returnedConfig result = .ok config) : OptionsShown (during tid tr) raw config.args := by
  obtain ⟨pre, hcaches, hdone, hpre, hcall⟩ := hgot.run hrun
  obtain ⟨entry, hentry, -, hvalue⟩ := returnedConfig_eq_ok.1 h
  have hcomputes := (computes_of_done hcaches hdone hentry).1
  obtain ⟨args, hvalue', hloaded, hfile⟩ := computes_config hcomputes
  obtain rfl := CacheValue.config.inj (hvalue.symm.trans hvalue')
  rcases hloaded with hinline | ⟨path, text, hpath, -⟩
  · exact .inl hinline
  · cases horigin : entry.origin with
    | none =>
      -- Without an origin there is no path.
      obtain ⟨path', hpath', hnone⟩ := ofConfig_eq_ok.1 hcomputes.1
      rw [horigin, ← Outcome.ok.inj (hpath.symm.trans hpath')] at hnone
      cases hnone
    | some o =>
      obtain ⟨hpath, -, hmode, text, htext, hparse⟩ := hfile o horigin
      obtain ⟨id, hcontent, hshown⟩ := (FileCache.current_of_run (cache_lawful hlt.le) htick hcaches
        (fun t ht => hsafe t (hpre.subset ht)) hdone hentry horigin).within hcall
      rw [htext] at hcontent
      refine .inr ⟨o.path, id, text, hpath, hparse, hcontent, (hshown rfl).imp fun file hsame => ?_⟩
      rwa [hsame]

theorem keysShown_of_got (htick : 0 < tick) (hlt : tick < settleTime) (hgot : Got tr tid m₁ (.verifier config) result)
    (hrun : Run (Module.Step jose tick) (.initial fs clock) tr m)
    (hsafe : ∀ t ∈ cacheHistory tr, (cache jose).SettlesSafely t.before t.label) {verifier : JwtVerifier Key}
    (h : returnedVerifier result = some (.ok verifier)) :
    KeysShown jose (during tid tr) config.args verifier := by
  obtain ⟨pre, hcaches, hdone, hpre, hcall⟩ := hgot.run hrun
  obtain ⟨entry, hentry, hvalue⟩ := returnedVerifier_eq_ok.1 h
  obtain ⟨o, iss, text, verifier', horigin, hsource, htext, hbuild, hvalue'⟩ :=
    computes_verifier (computes_of_done hcaches hdone hentry).1
  obtain rfl := CacheValue.verifier.inj (hvalue.symm.trans hvalue')
  obtain ⟨hiss, hjwks⟩ := PamArgs.source_eq_ok.1 hsource
  obtain ⟨id, hcontent, -⟩ := (FileCache.current_of_run (cache_lawful hlt.le) htick hcaches
    (fun t ht => hsafe t (hpre.subset ht)) hdone hentry horigin).within hcall
  rw [htext] at hcontent
  exact ⟨iss, o.path, id, text, hiss, hjwks, hcontent, mapError_eq_ok.1 hbuild⟩

/-- What was answered is a configuration for the arguments, whatever it is to say of the verifier. -/
theorem exists_config_of_got (hgot : Got tr tid m₁ (.config raw) result)
    (hrun : Run (Module.Step jose tick) (.initial fs clock) tr m)
    (answer : Except CacheError (JwtVerifier Key)) : ∃ config : Outcome PamError (Config raw Key),
      Config.args <$> config = ConfigRef.args <$> returnedConfig result ∧ ∀ loaded, config = .ok loaded →
        OptionsRead (cacheHistory tr) raw loaded.args ∧ loaded.verifier = answer := by
  cases h : returnedConfig result with
  | ok ref =>
    obtain ⟨hloaded, hread⟩ := optionsRead_of_got hgot hrun h
    refine ⟨.ok { args := ref.args, loaded := hloaded, verifier := answer }, rfl, ?_⟩
    rintro loaded ⟨⟩
    exact ⟨hread, rfl⟩
  | err e => exact ⟨.err e, rfl, fun loaded h => by cases h⟩
  | panic => exact ⟨.panic, rfl, fun loaded h => by cases h⟩

end

/-! ## Answers -/

/-- The configuration for some arguments where these are the files, without any cache. -/
def plainConfig (jose : Jose Jwk Key) (raw : List String) (files : String → FileId × File) :
    Outcome PamError (Config raw Key) :=
  match h : loadConfig raw files with
  | .ok args => .ok { args, loaded := loadedFrom_of_loadConfig h, verifier := loadVerifier jose args files }
  | .err e => .err e
  | .panic => .panic

theorem args_plainConfig (raw : List String) (files : String → FileId × File) :
    Config.args <$> plainConfig jose raw files = loadConfig raw files := by
  unfold plainConfig
  split <;> rename_i h <;> exact h.symm

theorem plainConfig_of_loadConfig {raw : List String} {files : String → FileId × File} {args : PamArgs}
    (h : loadConfig raw files = .ok args) :
    plainConfig jose raw files =
      .ok { args, loaded := loadedFrom_of_loadConfig h, verifier := loadVerifier jose args files } := by
  unfold plainConfig
  split
  · rename_i args' h'
    obtain rfl := Outcome.ok.inj (h.symm.trans h')
    rfl
  · rename_i e h'
    cases h.symm.trans h'
  · rename_i h'
    cases h.symm.trans h'

/-- The authentication reads the file. -/
def ReadsPath (raw : List String) (files : String → FileId × File) (path : String) : Prop :=
  configPath raw = .ok (some path) ∨ ∃ args, loadConfig raw files = .ok args ∧ args.jwks = some path

namespace Fixture

/-- The first thread authenticates. -/
def authenticationSteps : List ModuleLabel :=
  [.call 0 pam stack] ++ List.replicate 2 (.cache (.thread 0 .advance)) ++ [.resume 0] ++
    List.replicate 7 (.cache (.thread 0 .advance)) ++ [.resume 0]

/-- The file of the keys. -/
def keysFile : File :=
  { content := utf8 CrudeOAuth.Fixture.jwksJson, mode := 0o644, isFile := true, mtime := 10 ^ 10, ctime := 10 ^ 10 }

/-- The file is there, and no call of the operating system fails. -/
def keysUntouched (t : Taken (State (String × String)) (Label CacheKey)) : Bool :=
  t.before.fs.find "keys.json" == some (configId, keysFile) &&
  match t.label with
  | .thread _ (.fail _) => false
  | _ => true

def succeeded (m : Module (String × String)) : Bool :=
  match m.stages 0 with
  | .done _ raw rc => raw == stack && rc == some pamSuccess
  | _ => false

/-- A run in which the first thread succeeds, stamps settle safely and the file of the keys is
    left alone. -/
theorem exists_authentication : ∃ (tr : ModuleHistory (String × String)) (m : Module (String × String)) (pam : PamHandle),
    Run (Module.Step CrudeOAuth.Fixture.jose (4 * 10 ^ 6)) (.initial keysFs (1000 * 10 ^ 9)) tr m ∧
      m.stages 0 = .done pam stack (some pamSuccess) ∧
      (∀ t ∈ cacheHistory tr, (cache CrudeOAuth.Fixture.jose).SettlesSafely t.before t.label) ∧
      (∀ t ∈ cacheHistory tr, t.before.fs.find "keys.json" = some (configId, keysFile)) ∧
        ¬Faulted 0 (cacheHistory tr) := by
  have hexec : (exec (Module.step CrudeOAuth.Fixture.jose (4 * 10 ^ 6)) (.initial keysFs (1000 * 10 ^ 9))
      authenticationSteps).any (fun r => succeeded r.2 && (cacheHistory r.1).all safe &&
        (cacheHistory r.1).all keysUntouched) = true := by
    decide +kernel
  obtain ⟨⟨tr, m⟩, hexec, hcheck⟩ := (Option.any_eq_true _ _).1 hexec
  simp only [Bool.and_eq_true] at hcheck
  obtain ⟨⟨hsucceeded, hsafe⟩, huntouched⟩ := hcheck
  have hrun := Run.of_exec hexec
  have huntouched := fun t ht => Bool.and_eq_true_iff.1 (List.all_eq_true.1 huntouched t ht)
  unfold succeeded at hsucceeded
  split at hsucceeded
  · rename_i pam raw rc hdone
    obtain ⟨hraw, hrc⟩ := Bool.and_eq_true_iff.1 hsucceeded
    obtain rfl := beq_iff_eq.1 hraw
    obtain rfl := beq_iff_eq.1 hrc
    refine ⟨tr, m, pam, hrun, hdone, settlesSafely (run_caches hrun) (fun _ _ => rfl) hsafe,
      fun t ht => beq_iff_eq.1 (huntouched t ht).1, ?_⟩
    rintro ⟨t, ht, e, hlabel⟩
    have hno := (huntouched t ht).2
    rw [hlabel] at hno
    cases hno
  · cases hsucceeded

/-- The arguments of the stack name no other file. -/
theorem path_of_reads {path : String} (h : ReadsPath stack (fun _ => (configId, keysFile)) path) : path = "keys.json" := by
  obtain ⟨hpath, hinline⟩ : configPath stack = .ok none ∧ parseInlineArgs stack = .ok args := by decide +kernel
  rcases h with hconfig | ⟨args', hload, hjwks⟩
  · cases hpath.symm.trans hconfig
  · rw [loadConfig, hpath, Outcome.ok_bind, hinline] at hload
    obtain rfl := Outcome.ok.inj hload
    exact (Option.some.inj hjwks).symm

end Fixture

section

variable {pam : PamHandle} {raw : List String} {rc : Option Int}

/-- The configuration is what the caches have answered the thread since it was called: its options
    are what came of the first call, and its verifier is that of the second one, unless the
    authentication stops before it makes one. -/
def Answered (tr : ModuleHistory Key) (tid : Nat) (pam : PamHandle) (config : Outcome PamError (Config raw Key)) : Prop :=
  ∃ m₁ result, Got tr tid m₁ (.config raw) result ∧
    Config.args <$> config = ConfigRef.args <$> returnedConfig result ∧
    ∀ loaded, config = .ok loaded → (∃ code, pam.gather loaded.args = .error code) ∨
      ∃ ref m₂ result', returnedConfig result = .ok ref ∧ Got tr tid m₂ (.verifier ref) result' ∧
        returnedVerifier result' = some loaded.verifier

/-- In every run, an authentication answers what `authenticate` does with the configuration that
    the caches have answered it, at a time of the authentication; options and keys were read in
    the run. -/
theorem answer_of_run (hrun : Run (Module.Step jose tick) (.initial fs clock) tr m)
    (hdone : m.stages tid = .done pam raw rc) : ∃ config : Outcome PamError (Config raw Key),
      Answered tr tid pam config ∧
      (∃ t ∈ lastAuthentication tid tr, (authenticate jose t.before.caches.now pam config).rc = rc) ∧
        ∀ loaded, config = .ok loaded → OptionsRead (cacheHistory tr) raw loaded.args ∧
          ∀ verifier, loaded.verifier = .ok verifier → BuiltFrom jose (cacheHistory tr) loaded.args verifier := by
  have hended := came_of_run hrun tid
  rw [hdone] at hended
  cases hended with
  | @refused m₁ result rc hgot hprepare =>
    obtain ⟨config, hargs, hconfig⟩ := exists_config_of_got hgot hrun (.error .missing)
    obtain ⟨t, ht, -⟩ := hgot.mem
    refine ⟨config, ⟨m₁, result, hgot, hargs, ?_⟩, ⟨t, ht, authenticate_of_prepare_error hprepare hargs⟩,
      fun loaded hloaded => ?_⟩
    · rintro loaded rfl
      exact .inl (gather_of_prepare_error hprepare hargs)
    · obtain ⟨hread, hmissing⟩ := hconfig loaded hloaded
      refine ⟨hread, fun verifier hverifier => ?_⟩
      rw [hmissing] at hverifier
      cases hverifier
  | @judged m₁ result config user token m₂ result' hgot hprepare hgot' =>
    obtain ⟨hreturned, hgather⟩ := PamHandle.prepare_eq_ok.1 hprepare
    obtain ⟨hloaded, hread⟩ := optionsRead_of_got hgot hrun hreturned
    obtain ⟨pre, hcaches, hverified, -⟩ := hgot'.run hrun
    obtain ⟨answer, hanswer⟩ := exists_returnedVerifier hcaches hverified
    obtain ⟨t, ht, rfl⟩ := hgot'.mem
    refine ⟨.ok { args := config.args, loaded := hloaded, verifier := answer },
      ⟨m₁, result, hgot, (congrArg (ConfigRef.args <$> ·) hreturned).symm, ?_⟩, ⟨t, ht, ?_⟩, ?_⟩
    · rintro loaded ⟨⟩
      exact .inr ⟨config, _, result', hreturned, hgot', hanswer⟩
    · rw [hanswer]
      exact authenticate_of_gather_ok hgather
    · rintro loaded ⟨⟩
      refine ⟨hread, ?_⟩
      rintro verifier rfl
      exact builtFrom_of_got hgot' hrun hanswer

/-- The first thread of the fixture succeeds with the verifier that it has read. -/
theorem answer_of_run_fixture : ∃ (tr : ModuleHistory (String × String)) (pam : PamHandle)
    (config : Outcome PamError (Config Fixture.stack (String × String))), Answered tr 0 pam config ∧
      (∃ t ∈ lastAuthentication 0 tr,
        (authenticate CrudeOAuth.Fixture.jose t.before.caches.now pam config).rc = some pamSuccess) ∧
      ∀ loaded, config = .ok loaded → OptionsRead (cacheHistory tr) Fixture.stack loaded.args ∧
        ∀ verifier, loaded.verifier = .ok verifier →
          BuiltFrom CrudeOAuth.Fixture.jose (cacheHistory tr) loaded.args verifier := by
  obtain ⟨tr, m, pam, hrun, hdone, -⟩ := Fixture.exists_authentication
  exact ⟨tr, pam, answer_of_run hrun hdone⟩

/-- Success takes options and keys that their files had while the authentication was under way,
    where stamps settle safely. -/
theorem shown_of_success (htick : 0 < tick) (hlt : tick < settleTime)
    (hrun : Run (Module.Step jose tick) (.initial fs clock) tr m)
    (hsafe : ∀ t ∈ cacheHistory tr, (cache jose).SettlesSafely t.before t.label)
    (hdone : m.stages tid = .done pam raw (some pamSuccess)) :
    ∃ (loaded : Config raw Key) (verifier : JwtVerifier Key), loaded.verifier = .ok verifier ∧
      (∃ t ∈ lastAuthentication tid tr, Admits jose t.before.caches.now pam loaded) ∧
        OptionsShown (during tid tr) raw loaded.args ∧ KeysShown jose (during tid tr) loaded.args verifier := by
  have hended := came_of_run hrun tid
  rw [hdone] at hended
  generalize hrc : some pamSuccess = rc at hended
  cases hended with
  | @refused m₁ result rc hgot hprepare =>
    -- Without a verifier there is no success.
    obtain ⟨config, hargs, hconfig⟩ := exists_config_of_got hgot hrun (.error .missing)
    have hcode := @authenticate_of_prepare_error _ _ jose none pam raw _ _ hprepare _ hargs
    rw [← hrc, authenticate_eq_success] at hcode
    obtain ⟨loaded, rfl, -, -, -, verifier, -, -, -, -, hverifier, -⟩ := hcode
    rw [(hconfig loaded rfl).2] at hverifier
    cases hverifier
  | @judged m₁ result config user token m₂ result' hgot hprepare hgot' =>
    obtain ⟨hreturned, hgather⟩ := PamHandle.prepare_eq_ok.1 hprepare
    obtain ⟨hloaded, -⟩ := optionsRead_of_got hgot hrun hreturned
    obtain ⟨answer, hanswer, hjudge⟩ := Option.map_eq_some_iff.1 hrc.symm
    obtain ⟨t, ht, rfl⟩ := hgot'.mem
    have hcode := @authenticate_of_gather_ok _ _ jose t.before.caches.now pam raw
      { args := config.args, loaded := hloaded, verifier := answer } _ _ hgather
    rw [hjudge, authenticate_eq_success] at hcode
    obtain ⟨loaded, hok, hadmits⟩ := hcode
    obtain rfl := Outcome.ok.inj hok
    obtain ⟨-, -, verifier, -, -, -, -, hverifier, -⟩ := hadmits.token
    obtain rfl : answer = .ok verifier := hverifier
    exact ⟨_, verifier, rfl, ⟨t, ht, hadmits⟩, optionsShown_of_got htick hlt hgot hrun hsafe hreturned,
      keysShown_of_got htick hlt hgot' hrun hsafe hanswer⟩

/-- In the runs in which stamps settle safely, an authentication answers what `authenticate` does
    without any cache, at a time of the authentication, if the files that it reads are regular
    ones and stay as they are, and no call of the operating system fails. -/
theorem plain_of_run (htick : 0 < tick) (hlt : tick < settleTime)
    (hrun : Run (Module.Step jose tick) (.initial fs clock) tr m)
    (hsafe : ∀ t ∈ cacheHistory tr, (cache jose).SettlesSafely t.before t.label)
    (hdone : m.stages tid = .done pam raw rc) {files : String → FileId × File}
    (hfile : ∀ path, (files path).2.isFile = true)
    (hstable : ∀ path, ReadsPath raw files path → ∀ t ∈ during tid tr, t.before.fs.find path = some (files path))
    (hfault : ¬Faulted tid (during tid tr)) :
    ∃ t ∈ lastAuthentication tid tr,
      (authenticate jose t.before.caches.now pam (plainConfig jose raw files)).rc = rc := by
  -- A call of a cache returns what is computed without it.
  have hplain : ∀ {m₁ key result}, Got tr tid m₁ key result →
      (∀ path, (cache jose).path key = .ok (some path) → ReadsPath raw files path) →
        result.outcome = (cache jose).plain key files := by
    intro m₁ key result hgot hpath
    obtain ⟨pre, hcaches, hreturned, hpre, hcall⟩ := hgot.run hrun
    refine FileCache.transparent_of_run (cache_lawful hlt.le) htick hcaches (fun t ht => hsafe t (hpre.subset ht))
      hreturned (fun path hkey t ht => hstable path (hpath path hkey) t (hcall.subset ht))
      (fun path _ => accept_of_mode (hfile path)) ?_
    rintro ⟨t, ht, e, hlabel⟩
    exact hfault ⟨t, hcall.subset ht, e, hlabel⟩
  have hoptions : ∀ {m₁ result}, Got tr tid m₁ (.config raw) result →
      ConfigRef.args <$> returnedConfig result = loadConfig raw files := by
    intro m₁ result hgot
    refine returnedConfig_of_outcome ((hplain hgot fun path hpath => .inl ?_).trans (plain_config raw files))
    obtain ⟨path', hpath', rfl⟩ := ofConfig_eq_ok.1 hpath
    exact hpath'
  have hended := came_of_run hrun tid
  rw [hdone] at hended
  cases hended with
  | @refused m₁ result rc hgot hprepare =>
    obtain ⟨t, ht, -⟩ := hgot.mem
    exact ⟨t, ht, authenticate_of_prepare_error hprepare ((args_plainConfig raw files).trans (hoptions hgot).symm)⟩
  | @judged m₁ result config user token m₂ result' hgot hprepare hgot' =>
    obtain ⟨hreturned, hgather⟩ := PamHandle.prepare_eq_ok.1 hprepare
    have hload := hoptions hgot
    rw [hreturned] at hload
    have hanswer := returnedVerifier_of_outcome ((hplain hgot' fun path hpath => ?_).trans (plain_verifier config files))
    · obtain ⟨t, ht, rfl⟩ := hgot'.mem
      refine ⟨t, ht, ?_⟩
      rw [hanswer, plainConfig_of_loadConfig hload.symm]
      exact authenticate_of_gather_ok hgather
    · obtain ⟨source, hsource, hpath⟩ := ofVerifier_eq_ok.1 hpath
      obtain rfl := Option.some.inj hpath
      exact .inr ⟨config.args, hload.symm, (PamArgs.source_eq_ok.1 hsource).2⟩

theorem plain_of_run_fixture : ∃ (tr : ModuleHistory (String × String)) (pam : PamHandle),
    ∃ t ∈ lastAuthentication 0 tr, (authenticate CrudeOAuth.Fixture.jose t.before.caches.now pam
      (plainConfig CrudeOAuth.Fixture.jose Fixture.stack fun _ => (Fixture.configId, Fixture.keysFile))).rc =
        some pamSuccess := by
  obtain ⟨tr, m, pam, hrun, hdone, hsafe, hfile, hfault⟩ := Fixture.exists_authentication
  have hduring : ∀ t ∈ during 0 tr, t ∈ cacheHistory tr := fun t ht =>
    ((since_suffix _ tr).filterMap _).subset ht
  refine ⟨tr, pam, plain_of_run (by decide) (by decide) hrun hsafe hdone (fun _ => rfl) (fun path hpath t ht => ?_) ?_⟩
  · rw [Fixture.path_of_reads hpath]
    exact hfile t (hduring t ht)
  · rintro ⟨t, ht, e, hlabel⟩
    exact hfault ⟨t, hduring t ht, e, hlabel⟩

end

end CrudeOAuth.Pam
