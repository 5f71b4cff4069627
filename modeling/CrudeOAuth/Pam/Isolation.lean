import CrudeOAuth.Machine.Provenance
import CrudeOAuth.Pam.Authenticate
import CrudeOAuth.Pam.Coherence

/-!
# Isolation of the cache

Whatever calls are made, and whatever happens to the files in between, no configuration is
that of other arguments, and no verifier that of another configuration (`isolated_of_run`):
what is kept or returned for some arguments is what they say, or what was read from the file
that they select; what is kept or returned for a configuration was built under its own policy.

A configuration that is loaded anew has a number of its own, so the verifier of the one
before is out of its reach.
-/

namespace CrudeOAuth.Pam

open Rust Machine

variable {Jwk Key : Type} {jose : Jose Jwk Key} {tick : Nat}

/-- The steps of a run of the module. -/
abbrev PamHistory (Key : Type) := History CacheKey CacheLock Stamp CallError (CacheValue Key)

variable {tr : PamHistory Key} {s : State Key}

/-- The options were read from the path, in the run, while only the owner of the file could
    write it. -/
def ReadConfig (tr : PamHistory Key) (path : String) (args : PamArgs) : Prop :=
  ∃ origin text, origin.path = path ∧ ReadFrom tr origin ∧ origin.metadata.mode &&& 0o022 = 0 ∧
    origin.content = utf8 text ∧ parseConfig text path = .ok args

/-- The verifier was built under the policy of the options, of a text that was read, in the run,
    from the path that they name. -/
def BuiltFrom (jose : Jose Jwk Key) (tr : PamHistory Key) (args : PamArgs) (verifier : JwtVerifier Key) : Prop :=
  ∃ iss origin text, args.iss = some iss ∧ args.jwks = some origin.path ∧ ReadFrom tr origin ∧
    origin.content = utf8 text ∧ JwtVerifier.fromJwksJson jose (args.policy iss) text = .ok verifier

/-- The configuration was kept for the arguments, or returned for them, at some time. -/
def Issued (tr : PamHistory Key) (s : State Key) (raw : List String) (config : ConfigRef) : Prop :=
  ∃ entry, HeldIn tr s (.config raw) entry ∧ entry.serial = config.serial ∧ entry.value = .config config.args

/-- Verifiers are asked for of configurations that were returned before. -/
def AsksIssued (tr : PamHistory Key) : Prop :=
  ∀ pre t post, tr = pre ++ t :: post → ∀ tid config, t.label = .thread tid (.call (.verifier config)) →
    ∃ raw, Issued pre t.before raw config

/-- Nothing in the cache, and nothing that is returned, belongs to something else. -/
structure Isolated (jose : Jose Jwk Key) (tr : PamHistory Key) (s : State Key) : Prop where
  /-- the options for some arguments are theirs, or those of the file that they select -/
  config : ∀ raw entry, Holds s (.config raw) entry → ∃ args, entry.value = .config args ∧
    ((configPath raw = .ok none ∧ parseInlineArgs raw = .ok args) ∨
      ∃ path, configPath raw = .ok (some path) ∧ ReadConfig tr path args)
  /-- the verifier of a configuration is built under its policy -/
  verifier : ∀ config entry, Holds s (.verifier config) entry →
    ∃ verifier, entry.value = .verifier verifier ∧ BuiltFrom jose tr config.args verifier
  /-- a configuration is that of some arguments only, and no other has its number -/
  own : ∀ raw config raw' config', Issued tr s raw config → Issued tr s raw' config' →
    config.serial = config'.serial → raw = raw' ∧ config = config'
  /-- the verifiers that are kept under a number are those of one configuration -/
  slot : AsksIssued tr → ∀ config entry config' entry', HeldIn tr s (.verifier config) entry →
    HeldIn tr s (.verifier config') entry' → config.serial = config'.serial → config = config'

theorem readConfig_of_computes {raw : List String} {entry : Entry Stamp (CacheValue Key)}
    (hcomputes : (cache jose).Computes (.config raw) entry.origin entry.value)
    (hread : OriginRead tr entry.origin) : ∃ args, entry.value = .config args ∧
      ((configPath raw = .ok none ∧ parseInlineArgs raw = .ok args) ∨
        ∃ path, configPath raw = .ok (some path) ∧ ReadConfig tr path args) := by
  obtain ⟨args, hvalue, hloaded, hfile⟩ := computes_config hcomputes
  refine ⟨args, hvalue, ?_⟩
  rcases hloaded with hinline | ⟨path, contents, hpath, -⟩
  · exact .inl hinline
  · cases horigin : entry.origin with
    | none =>
      -- Without an origin there is no path.
      obtain ⟨path', hpath', hnone⟩ := ofConfig_eq_ok.1 hcomputes.1
      rw [horigin, ← Outcome.ok.inj (hpath.symm.trans hpath')] at hnone
      cases hnone
    | some o =>
      obtain ⟨hpath, -, hmode, text, htext, hparse⟩ := hfile o horigin
      exact .inr ⟨o.path, hpath, o, text, rfl, hread o horigin, hmode, htext, hparse⟩

theorem builtFrom_of_computes {config : ConfigRef} {entry : Entry Stamp (CacheValue Key)}
    (hcomputes : (cache jose).Computes (.verifier config) entry.origin entry.value)
    (hread : OriginRead tr entry.origin) :
    ∃ verifier, entry.value = .verifier verifier ∧ BuiltFrom jose tr config.args verifier := by
  obtain ⟨o, iss, text, verifier, horigin, hsource, htext, hbuild, hvalue⟩ := computes_verifier hcomputes
  obtain ⟨hiss, hjwks⟩ := PamArgs.source_eq_ok.1 hsource
  exact ⟨verifier, hvalue, iss, o, text, hiss, hjwks, hread o horigin, htext, mapError_eq_ok.1 hbuild⟩

/-- A number is given to one configuration only. -/
theorem eq_of_issued (hdistinct : Distinct tr s) {raw raw' : List String} {config config' : ConfigRef}
    (h : Issued tr s raw config) (h' : Issued tr s raw' config') (hserial : config.serial = config'.serial) :
    raw = raw' ∧ config = config' := by
  obtain ⟨entry, hheld, hentry, hvalue⟩ := h
  obtain ⟨entry', hheld', hentry', hvalue'⟩ := h'
  obtain ⟨hkey, rfl⟩ := hdistinct.distinct _ _ _ _ hheld hheld' (by rw [hentry, hentry', hserial])
  have hargs : config.args = config'.args := CacheValue.config.inj (hvalue.symm.trans hvalue')
  refine ⟨CacheKey.config.inj hkey, ?_⟩
  cases config
  cases config'
  simp_all

theorem Issued.append {pre post : PamHistory Key} {t : Taken (State Key) (Label CacheKey)} {raw : List String}
    {config : ConfigRef} (h : Issued pre t.before raw config) : Issued (pre ++ t :: post) s raw config := by
  obtain ⟨entry, hheld, h⟩ := h
  refine ⟨entry, ?_, h⟩
  rcases hheld with ⟨t', ht', hbefore⟩ | hbefore
  · exact .inl ⟨t', List.mem_append_left _ ht', hbefore⟩
  · exact .inl ⟨t, List.mem_append_right _ List.mem_cons_self, hbefore⟩

/-- A verifier is one of a configuration that was issued, if only such are asked for one. -/
theorem issued_of_heldIn {fs : FileSystem} {clock : Nat}
    (hrun : Run ((cache jose).Step tick) (.initial fs clock) tr s) (hasks : AsksIssued tr) {config : ConfigRef}
    {entry : Entry Stamp (CacheValue Key)} (hheld : HeldIn tr s (.verifier config) entry) :
    ∃ raw, Issued tr s raw config := by
  obtain ⟨t, ht, tid, hlabel⟩ := FileCache.called_of_run hrun hheld
  obtain ⟨pre, post, rfl⟩ := List.append_of_mem ht
  obtain ⟨raw, hissued⟩ := hasks pre t post rfl tid config hlabel
  exact ⟨raw, hissued.append⟩

/-- In every run, in every state of it, nothing belongs to something else. -/
theorem isolated_of_run {fs : FileSystem} {clock : Nat}
    (hrun : Run ((cache jose).Step tick) (.initial fs clock) tr s) : Isolated jose tr s := by
  have hsound := (FileCache.sound_of_run hrun).1
  have htraced := FileCache.traced_of_run hrun
  have hdistinct := FileCache.distinct_of_run hrun
  refine ⟨fun raw entry h => ?_, fun config entry h => ?_, fun raw config raw' config' => eq_of_issued hdistinct,
    fun hasks config entry config' entry' h h' hserial => ?_⟩
  · exact readConfig_of_computes (hsound.of_holds h) (htraced.of_holds h)
  · exact builtFrom_of_computes (hsound.of_holds h) (htraced.of_holds h)
  · obtain ⟨raw, hraw⟩ := issued_of_heldIn hrun hasks h
    obtain ⟨raw', hraw'⟩ := issued_of_heldIn hrun hasks h'
    exact (eq_of_issued hdistinct hraw hraw' hserial).2

namespace Fixture

/-- The file of the keys, changed at ten seconds. -/
def keysFs : FileSystem where
  files id := if id = configId then
      some { content := utf8 CrudeOAuth.Fixture.jwksJson, mode := 0o644, isFile := true
             mtime := 10 ^ 10, ctime := 10 ^ 10 }
    else none
  links path := if path = "keys.json" then some configId else none

/-- The first thread has returned the configuration. -/
def returned (s : State Key) (config : ConfigRef) : Bool :=
  match s.threads 0 with
  | .done (.config _) (.made { serial, value := .config args, .. }) => config = ⟨serial, args⟩
  | _ => false

/-- Only what the first thread has returned is asked for its verifier. -/
def asksReturned (tr : PamHistory Key) : Bool :=
  tr.all fun t =>
    match t.label with
    | .thread _ (.call (.verifier config)) => returned t.before config
    | _ => true

theorem asksIssued (h : asksReturned tr = true) : AsksIssued tr := by
  rintro pre t post rfl tid config hlabel
  have hreturned := List.all_eq_true.1 h t (List.mem_append_right _ List.mem_cons_self)
  rw [hlabel] at hreturned
  unfold returned at hreturned
  dsimp only at hreturned
  split at hreturned
  · rename_i raw stamp serial args origin hdone
    obtain rfl := of_decide_eq_true hreturned
    exact ⟨raw, _, .inr (.inr ⟨0, .inr hdone⟩), rfl, rfl⟩
  · cases hreturned

/-- The options of the stack but for the hosts, in a file. -/
def optionsText : String :=
  "oauthbearer_trusted_iss0: https://sso.example.org/realms/master\noauthbearer_trusted_jwks0: keys.json\n" ++
    "oauthbearer_trusted_aud0: ldaps://example.org/\n"

def fileArgs : PamArgs := { args with onlyFrom := [] }

def optionsId : FileId := ⟨2049, 13⟩

/-- Beside the file of the keys there is one with options, which only its owner can write. -/
def optionsFs : FileSystem where
  files id := if id = optionsId then
      some { content := utf8 optionsText, mode := 0o600, isFile := true, mtime := 10 ^ 10, ctime := 10 ^ 10 }
    else keysFs.files id
  links path := if path = "oauth.conf" then some optionsId else keysFs.links path

/-- The first thread reads the options, the second one the keys for them, and a third one asks for
    the configuration of other arguments. -/
def optionsSteps : List (Label CacheKey) :=
  callSteps 0 7 ++ [.thread 1 (.call (.verifier ⟨0, fileArgs⟩))] ++ List.replicate 7 (.thread 1 .advance) ++
    [.thread 2 (.call (.config stack))] ++ List.replicate 2 (.thread 2 .advance)

/-- The first thread has the options of the file, and the second one a new verifier. -/
def hasBoth (s : State Key) : Bool :=
  match s.threads 0, s.threads 1 with
  | .done (.config raw) (.made { value := .config args', .. }), .done (.verifier config) (.made _) =>
    raw == configRaw && args' == fileArgs && config == ⟨0, fileArgs⟩
  | _, _ => false

end Fixture

/-- A configuration that was read from its file, and its verifier, in a run that asks for what was
    returned. -/
theorem isolated_of_run_fixture : ∃ (tr : PamHistory (String × String)) (s : State (String × String)),
    AsksIssued tr ∧ Isolated CrudeOAuth.Fixture.jose tr s ∧ ReadConfig tr "oauth.conf" Fixture.fileArgs ∧
      ∃ entry verifier, Holds s (.verifier ⟨0, Fixture.fileArgs⟩) entry ∧ entry.value = .verifier verifier ∧
        BuiltFrom CrudeOAuth.Fixture.jose tr Fixture.fileArgs verifier := by
  have hrun : (exec ((cache CrudeOAuth.Fixture.jose).step (4 * 10 ^ 6))
      (.initial Fixture.optionsFs (13 * 10 ^ 9)) Fixture.optionsSteps).any
        (fun r => Fixture.asksReturned r.1 && Fixture.hasBoth r.2) = true := by
    decide +kernel
  obtain ⟨⟨tr, s⟩, hexec, hcheck⟩ := (Option.any_eq_true _ _).1 hrun
  obtain ⟨hasks, hboth⟩ := Bool.and_eq_true_iff.1 hcheck
  have hisolated := isolated_of_run (Run.of_exec hexec)
  refine ⟨tr, s, Fixture.asksIssued hasks, hisolated, ?_⟩
  unfold Fixture.hasBoth at hboth
  split at hboth
  · rename_i raw stamp serial args' origin config entry hconfig hverifier
    simp only [Bool.and_eq_true, beq_iff_eq] at hboth
    obtain ⟨⟨rfl, rfl⟩, rfl⟩ := hboth
    constructor
    · obtain ⟨args, hvalue, hread⟩ := hisolated.config _ _ (.inr ⟨0, .inr hconfig⟩)
      obtain rfl := CacheValue.config.inj hvalue
      have hpath : configPath Fixture.configRaw = .ok (some "oauth.conf") := by decide +kernel
      rcases hread with ⟨hnone, -⟩ | ⟨path, hsome, hread⟩
      · cases hpath.symm.trans hnone
      · rw [hpath] at hsome
        obtain rfl := Option.some.inj (Outcome.ok.inj hsome)
        exact hread
    · have hholds : Holds s (.verifier ⟨0, Fixture.fileArgs⟩) entry := .inr ⟨1, .inr hverifier⟩
      obtain ⟨verifier, hvalue, hbuilt⟩ := hisolated.verifier _ _ hholds
      exact ⟨entry, verifier, hholds, hvalue, hbuilt⟩
  · cases hboth

end CrudeOAuth.Pam
