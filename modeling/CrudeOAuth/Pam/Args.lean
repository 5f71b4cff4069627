import CrudeOAuth.Core.Config
import CrudeOAuth.Core.Jwt.Verifier

/-!
# The options of the PAM module

What `pam/src/lib.rs` reads from the arguments of the PAM stack: either options of
the form `key=value`, or a single `config=` with the path of a file that is read the
way Cyrus reads its own. Both give the same record, `PamArgs`.

The arguments that a result depends on are `PamArgs.LoadedFrom`: options are those of
the arguments themselves, or of a text of the file that the arguments select.
-/

namespace CrudeOAuth.Pam

open Rust Rust.Outcome

/-- Why the options are refused; the source renders these as texts. -/
inductive PamError
  /-- multiple config options given -/
  | multipleConfig
  /-- config cannot be combined with inline options -/
  | configWithInline
  /-- invalid grace: … -/
  | invalidGrace (e : ParseIntError)
  /-- multiple … values given -/
  | multipleValues (name : String)
  /-- invalid … value … -/
  | invalidAlgorithm (name value : String)
  /-- failed to stat config file …: … (by `cache::config`, and after the file is open) -/
  | statConfig (path e : String)
  /-- failed to open config file …: … -/
  | openConfig (path e : String)
  /-- config path … is not a regular file -/
  | notRegular (path : String)
  /-- config file … is writable by group or others -/
  | writable (path : String)
  /-- failed to read config file …: … -/
  | readConfig (path e : String)
  /-- invalid config line … in … -/
  | invalidLine (line : Nat) (path : String)
  | options (e : OptionsError)
  deriving DecidableEq, Repr

structure PamArgs where
  userid : String
  grace : Int64
  iss : Option String
  jwks : Option String
  trustedAud : List String
  trustedAzp : List String
  requiredScope : List String
  onlyFrom : List (List String)
  disallowedUsernames : List String
  allowedAlgorithms : Option (List Algorithm)
  disallowedAlgorithms : List Algorithm
  deriving DecidableEq

/-- The `config=` path, if the arguments select a configuration file. -/
def configPath (raw : List String) : Outcome PamError (Option String) :=
  let configPaths := raw.filterMap (stripPrefix "config=")
  if 1 < configPaths.length then .err .multipleConfig
  else if configPaths ≠ [] ∧ raw.any (fun arg => (stripPrefix "config=" arg).isNone) then
    .err .configWithInline
  else .ok configPaths.head?

/-! ## Options as arguments -/

def setOnce (slot : Option String) (value name : String) : Outcome PamError (Option String) :=
  if slot.isSome then .err (.multipleValues name) else .ok (some value)

def addAlgorithm (slot : Option (List Algorithm)) (value name : String) :
    Outcome PamError (Option (List Algorithm)) := do
  let algorithm ← okOr (parseAlgorithmName value) (.invalidAlgorithm name value)
  .ok (some (pushAlgorithm (slot.getD []) algorithm))

def addDisallowedAlgorithm (values : List Algorithm) (value : String) :
    Outcome PamError (List Algorithm) := do
  let algorithm ← okOr (parseAlgorithmName value) (.invalidAlgorithm "disallowed_alg" value)
  .ok (pushAlgorithm values algorithm)

/-- The hosts of one `only_from` option. -/
def onlyFromHosts (value : String) : List String :=
  (splitWhere (· == ',') value).filter (· ≠ "")

def applyOption (args : PamArgs) (key value : String) : Outcome PamError PamArgs := do
  match key with
  | "userid" => .ok { args with userid := value }
  | "grace" =>
    match parseI64 value with
    | .ok grace => .ok { args with grace }
    | .error e => .err (.invalidGrace e)
  | "iss" => .ok { args with iss := ← setOnce args.iss value "iss" }
  | "jwks" => .ok { args with jwks := ← setOnce args.jwks value "jwks" }
  | "trusted_aud" => .ok { args with trustedAud := args.trustedAud ++ [value] }
  | "trusted_azp" => .ok { args with trustedAzp := args.trustedAzp ++ [value] }
  | "required_scope" => .ok { args with requiredScope := args.requiredScope ++ [value] }
  | "only_from" => .ok { args with onlyFrom := args.onlyFrom ++ [onlyFromHosts value] }
  | "disallowed_username" =>
    .ok { args with disallowedUsernames := args.disallowedUsernames ++ [value] }
  | "allowed_alg" =>
    .ok { args with allowedAlgorithms := ← addAlgorithm args.allowedAlgorithms value "allowed_alg" }
  | "disallowed_alg" =>
    .ok { args with disallowedAlgorithms := ← addDisallowedAlgorithm args.disallowedAlgorithms value }
  | _ => .ok args

def defaultArgs : PamArgs where
  userid := "preferred_username"
  grace := 3
  iss := none
  jwks := none
  trustedAud := []
  trustedAzp := []
  requiredScope := []
  onlyFrom := []
  disallowedUsernames := []
  allowedAlgorithms := none
  disallowedAlgorithms := []

/-- One argument of the stack; an argument without `=` is passed over. -/
def applyArg (args : PamArgs) (arg : String) : Outcome PamError PamArgs :=
  match splitOnce '=' arg with
  | some (key, value) => applyOption args key value
  | none => .ok args

def parseInlineArgs (raw : List String) : Outcome PamError PamArgs :=
  raw.foldlM applyArg defaultArgs

/-! ## Options as a file -/

/-- The entry of a line of the file, if the line has one. -/
def parseLine (path : String) (lineNumber : Nat) (line : String) :
    Outcome PamError (Option (String × String)) := do
  let line := trimStart line
  if line = "" ∨ (stripPrefix "#" line).isSome then .ok none
  else
    let (key, value) ← okOr (splitOnce ':' line) (.invalidLine (lineNumber + 1) path)
    let value := trim value
    if value = "" ∨ ¬key.toList.all fun c => isAsciiAlphanumeric c || c == '-' || c == '_' then
      .err (.invalidLine (lineNumber + 1) path)
    else .ok (some (toAsciiLowercase key, value))

/-- The entries of the file. -/
def parseLines (contents path : String) : Outcome PamError (List (String × String)) :=
  (lines contents).zipIdx.foldlM (fun entries (line, lineNumber) => do
    return entries ++ (← parseLine path lineNumber line).toList) []

/-- The first entry with the name wins. -/
def lookupEntry (entries : List (String × String)) : Getter := fun name => .ok (entries.lookup name)

/-- The options of a policy as those of the module; a file has no `only_from`. -/
def PamArgs.ofOptions (options : PolicyOptions) : PamArgs where
  userid := options.uidAttr
  grace := options.grace
  iss := options.trustedIssuer
  jwks := options.jwksPath
  trustedAud := options.trustedAudiences
  trustedAzp := options.trustedAuthorizedParties
  requiredScope := options.requiredScopes
  onlyFrom := []
  disallowedUsernames := options.disallowedUsernames
  allowedAlgorithms := options.allowedAlgorithms
  disallowedAlgorithms := options.disallowedAlgorithms

def parseConfig (contents path : String) : Outcome PamError PamArgs := do
  let entries ← parseLines contents path
  match PolicyOptions.read (lookupEntry entries) with
  | .ok options => .ok (.ofOptions options)
  | .err e => .err (.options e)
  | .panic => .panic

/-- The options of a file are those that its entries say. -/
theorem parseConfig_eq_ok {contents path : String} {entries : List (String × String)} {args : PamArgs}
    (hlines : parseLines contents path = .ok entries) : parseConfig contents path = .ok args ↔
      ∃ options, PolicyOptions.read (lookupEntry entries) = .ok options ∧ args = .ofOptions options := by
  rw [parseConfig, hlines, ok_bind]
  cases PolicyOptions.read (lookupEntry entries) with
  | ok options => simp [eq_comm]
  | err e => simp
  | panic => simp

example : parseConfig "# comment\nOAuthBearer_Trusted_Iss0: https://first/#frag\n" "test" =
    .ok { defaultArgs with iss := some "https://first/#frag" } := by decide +kernel

/-! ## Where the options come from -/

/-- The options are those of the arguments, or of a text of the file they select. -/
def PamArgs.LoadedFrom (raw : List String) (args : PamArgs) : Prop :=
  (configPath raw = .ok none ∧ parseInlineArgs raw = .ok args) ∨
    ∃ path contents, configPath raw = .ok (some path) ∧ parseConfig contents path = .ok args

/-- The values of the `only_from` arguments. -/
def onlyFromArgs (raw : List String) : List String := raw.filterMap (stripPrefix "only_from=")

theorem applyOption_onlyFrom {args args' : PamArgs} {key value : String}
    (h : applyOption args key value = .ok args') :
    args'.onlyFrom = args.onlyFrom ++ if key = "only_from" then [onlyFromHosts value] else [] := by
  -- Only one of the options touches the lists of hosts.
  unfold applyOption at h
  split at h
  case h_2 =>
    split at h
    · simp [← Outcome.ok.inj h]
    · cases h
  case h_3 | h_4 | h_10 | h_11 =>
    obtain ⟨slot, -, h⟩ := bind_eq_ok.1 h
    simp [← Outcome.ok.inj h]
  case h_12 =>
    rename_i hother _ _ _
    rw [← Outcome.ok.inj h, if_neg hother, List.append_nil]
  all_goals simp [← Outcome.ok.inj h]

theorem applyArg_onlyFrom {args args' : PamArgs} {arg : String} (h : applyArg args arg = .ok args') :
    args'.onlyFrom = args.onlyFrom ++ ((stripPrefix "only_from=" arg).map onlyFromHosts).toList := by
  have hkey : stripPrefix "only_from=" arg =
      (splitOnce '=' arg).bind fun kv => if kv.1 = "only_from" then some kv.2 else none :=
    @stripPrefix_key '=' "only_from" arg (by decide)
  rw [hkey]
  unfold applyArg at h
  split at h
  · rename_i key value hsplit
    rw [applyOption_onlyFrom h, hsplit, Option.bind_some]
    split <;> rfl
  · rename_i hsplit
    rw [hsplit, ← Outcome.ok.inj h]
    simp

theorem foldlM_applyArg_onlyFrom {raw : List String} {args args' : PamArgs}
    (h : raw.foldlM applyArg args = .ok args') :
    args'.onlyFrom = args.onlyFrom ++ (onlyFromArgs raw).map onlyFromHosts := by
  induction raw generalizing args with
  | nil => simpa [onlyFromArgs] using (Outcome.ok.inj h).symm ▸ rfl
  | cons arg raw ih =>
    rw [List.foldlM_cons] at h
    obtain ⟨next, hnext, h⟩ := bind_eq_ok.1 h
    rw [ih h, applyArg_onlyFrom hnext, List.append_assoc, onlyFromArgs, onlyFromArgs,
      List.filterMap_cons]
    cases stripPrefix "only_from=" arg <;> rfl

/-- Arguments that select a file are of no other kind. -/
theorem exists_of_configPath {raw : List String} {path : String} (h : configPath raw = .ok (some path)) :
    ∀ arg ∈ raw, ∃ v, arg = "config=" ++ v := by
  simp only [configPath] at h
  split at h
  · cases h
  · split at h
    · cases h
    · rename_i hall
      intro arg harg
      -- There is a path, so an argument of another kind would have been refused.
      have hsome : raw.filterMap (stripPrefix "config=") ≠ [] := fun hnil => by
        rw [hnil] at h
        cases h
      have hget : ¬(stripPrefix "config=" arg).isNone := fun hnone =>
        hall ⟨hsome, List.any_eq_true.2 ⟨arg, harg, hnone⟩⟩
      obtain ⟨v, hv⟩ := Option.ne_none_iff_exists'.1 (fun hnone => hget (Option.isNone_iff_eq_none.2 hnone))
      exact ⟨v, stripPrefix_eq_some.1 hv⟩

/-- The lists of hosts are those of the `only_from` arguments, in order. -/
theorem PamArgs.LoadedFrom.onlyFrom_eq {raw : List String} {args : PamArgs} (h : args.LoadedFrom raw) :
    args.onlyFrom = (onlyFromArgs raw).map onlyFromHosts := by
  rcases h with ⟨-, h⟩ | ⟨path, contents, hpath, h⟩
  · simpa [defaultArgs] using foldlM_applyArg_onlyFrom h
  · have hargs : onlyFromArgs raw = [] := by
      refine List.filterMap_eq_nil_iff.2 fun arg harg => ?_
      obtain ⟨v, rfl⟩ := exists_of_configPath hpath arg harg
      -- An argument does not start both with `config=` and with `only_from=`.
      by_contra hsome
      obtain ⟨t, ht⟩ := Option.ne_none_iff_exists'.1 hsome
      have := congrArg (List.head? ∘ String.toList) (stripPrefix_eq_some.1 ht)
      simp at this
    obtain ⟨entries, hlines, -⟩ := bind_eq_ok.1 h
    obtain ⟨options, -, rfl⟩ := (parseConfig_eq_ok hlines).1 h
    rw [hargs]
    rfl

end CrudeOAuth.Pam
