import CrudeOAuth.Machine.FileCache
import CrudeOAuth.Pam.Config

/-!
# The cache of the PAM module

The two caches of `pam/src/cache.rs`: configurations, kept for the arguments of the stack
and checked against the `config=` file, and in each configuration its verifier, checked
against the JWKS file. Both look a value up, and compute it anew, in the same steps, so
they are one `FileCache` whose keys are the arguments of `cache::config` and the
configurations of `Config::verifier`.

A file is known by its `Stamp`, which is kept only if it has settled
(`Stamp.settled_eq_some`).
-/

namespace CrudeOAuth.Pam

open Rust Machine

variable {Jwk Key : Type}

/-! ## Stamps -/

/-- Seconds and nanoseconds of a file time. -/
def timespec (time : Int) : Int × Int := (time / 10 ^ 9, time % 10 ^ 9)

theorem timespec_injective : Function.Injective timespec := by
  intro t t' h
  obtain ⟨hsecs, hnsecs⟩ := Prod.mk.inj h
  rw [← Int.mul_ediv_add_emod t (10 ^ 9), ← Int.mul_ediv_add_emod t' (10 ^ 9), hsecs, hnsecs]

/-- Identifies one version of a file. -/
structure Stamp where
  dev : UInt64
  ino : UInt64
  len : Nat
  mtime : Int × Int
  ctime : Int × Int
  deriving DecidableEq, Repr

def Stamp.of (metadata : Metadata) : Stamp where
  dev := metadata.id.dev
  ino := metadata.id.ino
  len := metadata.len
  mtime := timespec metadata.mtime
  ctime := timespec metadata.ctime

/-- Two seconds, in nanoseconds. -/
def settleTime : Nat := 2 * 10 ^ 9

/-- The stamp to cache, or `none` to force a reread next time. -/
def Stamp.settled (now : Nat) (metadata : Metadata) : Option Stamp :=
  let ctime := timespec metadata.ctime
  if ctime.1 < 0 ∨ ctime.2 < 0 then none
  else
    let changed := ctime.1.toNat * 10 ^ 9 + ctime.2.toNat
    if now < changed then none
    else if settleTime ≤ now - changed then some (.of metadata)
    else none

theorem Stamp.settled_eq_some {now : Nat} {metadata : Metadata} {stamp : Stamp}
    (h : Stamp.settled now metadata = some stamp) :
    stamp = .of metadata ∧ metadata.ctime + settleTime ≤ now := by
  have htime : 10 ^ 9 * (timespec metadata.ctime).1 + (timespec metadata.ctime).2 = metadata.ctime :=
    Int.mul_ediv_add_emod metadata.ctime (10 ^ 9)
  unfold Stamp.settled at h
  dsimp only at h
  split at h
  · cases h
  · split at h
    · cases h
    · split at h
      · refine ⟨(Option.some.inj h).symm, ?_⟩
        omega
      · cases h

/-! ## Keys -/

/-- A configuration that a call returned: an `Arc<Config>`. -/
structure ConfigRef where
  serial : Nat
  args : PamArgs
  deriving DecidableEq

inductive CacheKey
  /-- `cache::config` with the arguments -/
  | config (raw : List String)
  /-- `Config::verifier` of the configuration -/
  | verifier (config : ConfigRef)
  deriving DecidableEq

/-- There is one lock for all configurations, and one in each for its verifier. -/
inductive CacheLock
  | cache
  | slot (serial : Nat)
  deriving DecidableEq, Repr

inductive CacheValue (Key : Type)
  | config (args : PamArgs)
  | verifier (verifier : JwtVerifier Key)

inductive CallError
  | config (e : PamError)
  | verifier (e : CacheError)
  deriving DecidableEq, Repr

/-! ## Reading files -/

/-- What `read_config_file` requires of the file that it has opened. -/
def acceptConfigFile (path : String) (metadata : Metadata) : Except PamError Unit := do
  check metadata.isFile (.notRegular path)
  check (metadata.mode &&& 0o022 == 0) (.writable path)

/-- `file.read_to_string`, of all that the file has -/
def readToString (content : Bytes) : Except String String :=
  okOrElse (fromUtf8 content) "stream did not contain valid UTF-8"

/-- What `read_config_file` makes of the file that it has accepted. -/
def readConfigFile (path : String) (content : Bytes) : Outcome PamError PamArgs :=
  match readToString content with
  | .ok contents => parseConfig contents path
  | .error e => .err (.readConfig path e)

/-- What `Config::verifier` makes of the file that it has opened. -/
def readVerifier (jose : Jose Jwk Key) (args : PamArgs) (path : String) (content : Bytes) :
    Except CacheError (JwtVerifier Key) := do
  let (iss, _) ← args.source
  let jwksJson ← (readToString content).mapError (.readJwks path)
  args.build jose iss jwksJson

/-! ## The cache -/

/-- The outcome of a function of the module as that of a call. -/
def ofConfig {α β : Type} (f : α → β) : Outcome PamError α → Outcome CallError β
  | .ok a => .ok (f a)
  | .err e => .err (.config e)
  | .panic => .panic

def ofVerifier {α β : Type} (f : α → β) : Except CacheError α → Outcome CallError β
  | .ok a => .ok (f a)
  | .error e => .err (.verifier e)

def cache (jose : Jose Jwk Key) : FileCache CacheKey CacheLock Stamp CallError (CacheValue Key) where
  path
    | .config raw => ofConfig (fun path => path) (configPath raw)
    | .verifier config => ofVerifier (fun source => some source.2) config.args.source
  lock
    | .config _ => .cache
    | .verifier config => .slot config.serial
  stamp := .of
  settled := Stamp.settled
  accept
    | .config _, path, metadata => (acceptConfigFile path metadata).mapError .config
    | .verifier _, _, _ => .ok ()
  load
    | .config _, some (path, content) => ofConfig .config (readConfigFile path content)
    | .config raw, none => ofConfig .config (parseInlineArgs raw)
    | .verifier config, some (path, content) =>
      ofVerifier .verifier (readVerifier jose config.args path content)
    -- A configuration with a verifier has a path.
    | .verifier _, none => .panic
  fileError
    | .config _, path, call, e => .config <|
      match call with
      | .stat | .fstat => .statConfig path e
      | .open' => .openConfig path e
      | .read => .readConfig path e
    | .verifier _, path, _, e => .verifier (.readJwks path e)
  usesMode
    | .config _ => true
    | .verifier _ => false

/-! ## What is computed -/

theorem ofConfig_eq_ok {α β : Type} {f : α → β} {outcome : Outcome PamError α} {b : β} :
    ofConfig f outcome = .ok b ↔ ∃ a, outcome = .ok a ∧ f a = b := by
  cases outcome <;> simp [ofConfig]

theorem ofVerifier_eq_ok {α β : Type} {f : α → β} {result : Except CacheError α} {b : β} :
    ofVerifier f result = .ok b ↔ ∃ a, result = .ok a ∧ f a = b := by
  cases result <;> simp [ofVerifier]

theorem readToString_eq_ok {content : Bytes} {text : String} :
    readToString content = .ok text ↔ utf8 text = content := by
  rw [readToString, okOrElse_eq_ok, fromUtf8_eq_some]

theorem acceptConfigFile_eq_ok {path : String} {metadata : Metadata} {u : Unit} :
    acceptConfigFile path metadata = .ok u ↔ metadata.isFile = true ∧ metadata.mode &&& 0o022 = 0 := by
  simp [acceptConfigFile, except_bind_eq_ok]

theorem readConfigFile_eq_ok {path : String} {content : Bytes} {args : PamArgs} :
    readConfigFile path content = .ok args ↔
      ∃ text, content = utf8 text ∧ parseConfig text path = .ok args := by
  unfold readConfigFile
  cases h : readToString content with
  | ok text =>
    obtain rfl := readToString_eq_ok.1 h
    exact ⟨fun h => ⟨text, rfl, h⟩, fun ⟨text', htext, h⟩ => utf8_injective htext ▸ h⟩
  | error e =>
    refine iff_of_false (by simp) ?_
    rintro ⟨text, rfl, -⟩
    rw [readToString_eq_ok.2 rfl] at h
    cases h

theorem readVerifier_eq_ok {jose : Jose Jwk Key} {args : PamArgs} {path : String} {content : Bytes}
    {verifier : JwtVerifier Key} :
    readVerifier jose args path content = .ok verifier ↔
      ∃ iss jwksPath text, args.source = .ok (iss, jwksPath) ∧ content = utf8 text ∧
        args.build jose iss text = .ok verifier := by
  simp only [readVerifier, except_bind_eq_ok, mapError_eq_ok, readToString_eq_ok, Prod.exists]
  constructor
  · rintro ⟨iss, jwksPath, hsource, text, rfl, hbuild⟩
    exact ⟨iss, jwksPath, text, hsource, rfl, hbuild⟩
  · rintro ⟨iss, jwksPath, text, hsource, rfl, hbuild⟩
    exact ⟨iss, jwksPath, hsource, text, rfl, hbuild⟩

/-- A configuration for some arguments is the options of the arguments, or of a text that was
    read from the file they select while only its owner could write it. -/
theorem computes_config {jose : Jose Jwk Key} {raw : List String} {origin : Option Origin}
    {value : CacheValue Key} (h : (cache jose).Computes (.config raw) origin value) :
    ∃ args, value = .config args ∧ args.LoadedFrom raw ∧ ∀ o, origin = some o →
      configPath raw = .ok (some o.path) ∧ o.metadata.isFile = true ∧ o.metadata.mode &&& 0o022 = 0 ∧
        ∃ text, o.content = utf8 text ∧ parseConfig text o.path = .ok args := by
  obtain ⟨hpath, haccept, hload⟩ := h
  obtain ⟨path, hconfig, rfl⟩ := ofConfig_eq_ok.1 hpath
  cases origin with
  | none =>
    obtain ⟨args, hargs, rfl⟩ := ofConfig_eq_ok.1 hload
    exact ⟨args, rfl, .inl ⟨hconfig, hargs⟩, fun o ho => by cases ho⟩
  | some o =>
    obtain ⟨args, hread, rfl⟩ := ofConfig_eq_ok.1 hload
    obtain ⟨text, htext, hparse⟩ := readConfigFile_eq_ok.1 hread
    obtain ⟨hfile, hmode⟩ := acceptConfigFile_eq_ok.1 (mapError_eq_ok.1 (haccept o rfl))
    refine ⟨args, rfl, .inr ⟨o.path, text, hconfig, hparse⟩, ?_⟩
    rintro _ ⟨⟩
    exact ⟨hconfig, hfile, hmode, text, htext, hparse⟩

/-- The verifier of a configuration is built of its options and of a text that was read from
    the file they name. -/
theorem computes_verifier {jose : Jose Jwk Key} {config : ConfigRef} {origin : Option Origin}
    {value : CacheValue Key} (h : (cache jose).Computes (.verifier config) origin value) :
    ∃ o iss text verifier, origin = some o ∧ config.args.source = .ok (iss, o.path) ∧
      o.content = utf8 text ∧ config.args.build jose iss text = .ok verifier ∧
        value = .verifier verifier := by
  obtain ⟨hpath, -, hload⟩ := h
  obtain ⟨source, hsource, hsome⟩ := ofVerifier_eq_ok.1 hpath
  -- A configuration with a verifier has a path, so the value comes from a file.
  cases origin with
  | none => cases hsome
  | some o =>
    obtain ⟨verifier, hread, rfl⟩ := ofVerifier_eq_ok.1 hload
    obtain ⟨iss, jwksPath, text, hsource', htext, hbuild⟩ := readVerifier_eq_ok.1 hread
    obtain rfl := Except.ok.inj (hsource.symm.trans hsource')
    obtain rfl := Option.some.inj hsome
    exact ⟨o, iss, text, verifier, rfl, hsource', htext, hbuild, rfl⟩

end CrudeOAuth.Pam
