import CrudeOAuth.Core.Jwt.Algorithm
import CrudeOAuth.Rust.Int
import CrudeOAuth.Rust.Outcome
import CrudeOAuth.Rust.Text

/-!
# Options

The interpretation of the `oauthbearer_*` options (`core/src/config.rs`), which the
SASL plugin looks up in the Cyrus configuration and the PAM module in its `config=`
file. The lookup `get` of one option is a parameter; `none` is an unset option.

`getIndexed` counts its index up until an option is unset. The index is a `usize`,
and counting past the last one panics.
-/

namespace CrudeOAuth

open Rust Rust.Outcome

/-- Why the options are refused; the source renders these as texts. -/
inductive OptionsError
  /-- the error of the lookup itself -/
  | lookup (e : String)
  /-- invalid oauthbearer_grace: … -/
  | invalidGrace (e : ParseIntError)
  /-- invalid … value … -/
  | invalidAlgorithm (option value : String)
  /-- empty SASL option … -/
  | emptyOption (name : String)
  deriving DecidableEq, Repr

structure PolicyOptions where
  uidAttr : String
  grace : Int64
  trustedIssuer : Option String
  jwksPath : Option String
  trustedAudiences : List String
  trustedAuthorizedParties : List String
  requiredScopes : List String
  disallowedUsernames : List String
  allowedAlgorithms : Option (List Algorithm)
  disallowedAlgorithms : List Algorithm
  deriving DecidableEq

/-- `impl Fn(&str) -> Result<Option<String>, String>` -/
abbrev Getter := String → Except String (Option String)

/-- `get(name)?` -/
def getOption (get : Getter) (name : String) : Outcome OptionsError (Option String) :=
  match get name with
  | .ok value => .ok value
  | .error e => .err (.lookup e)

/-- Adds an algorithm to a list unless the list has it. -/
def pushAlgorithm (result : List Algorithm) (alg : Algorithm) : List Algorithm :=
  if alg ∈ result then result else result ++ [alg]

def parseAlgorithms (option : String) (values : List String) : Outcome OptionsError (List Algorithm) :=
  values.foldlM (fun result value => do
    let alg ← okOr (parseAlgorithmName value) (.invalidAlgorithm option value)
    .ok (pushAlgorithm result alg)) []

/-- The loop of `get_indexed` at an index, with at most `fuel` more indices. -/
def getIndexedLoop (get : Getter) (pre : String) :
    (fuel index : Nat) → (values : List String) → Outcome OptionsError (List String)
  | 0, _, _ => .panic
  | fuel + 1, index, values => do
    let name := pre ++ toString index
    match ← getOption get name with
    | some v =>
      if v ≠ "" then getIndexedLoop get pre fuel (index + 1) (values ++ [v])
      else .err (.emptyOption name)
    | none => .ok values

def getIndexed (get : Getter) (pre : String) : Outcome OptionsError (List String) :=
  getIndexedLoop get pre (2 ^ 64) 0 []

def getListOption (get : Getter) (name : String) : Outcome OptionsError (List String) := do
  let indexed ← getIndexed get name
  if indexed ≠ [] then .ok indexed
  else
    match ← getOption get name with
    | none => .ok []
    | some value =>
      .ok ((splitWhere (fun c => c == ',' || isAsciiWhitespace c) value).filter (· ≠ ""))

def PolicyOptions.read (get : Getter) : Outcome OptionsError PolicyOptions := do
  let uidAttr ← getOption get "oauthbearer_userid"
  let uidAttr := (uidAttr.filter (· ≠ "")).getD "preferred_username"
  let grace ← getOption get "oauthbearer_grace"
  let grace ← (match parseI64 (grace.getD "3") with
    | .ok grace => .ok grace
    | .error e => .err (.invalidGrace e))
  let allowedNames ← getListOption get "oauthbearer_allowed_alg"
  let allowedAlgorithms ←
    (if allowedNames = [] then .ok none
    else some <$> parseAlgorithms "oauthbearer_allowed_alg" allowedNames)
  let disallowedNames ← getListOption get "oauthbearer_disallowed_alg"
  let disallowedAlgorithms ← parseAlgorithms "oauthbearer_disallowed_alg" disallowedNames
  let trustedIssuer ← getOption get "oauthbearer_trusted_iss0"
  let jwksPath ← getOption get "oauthbearer_trusted_jwks0"
  let trustedAudiences ← getIndexed get "oauthbearer_trusted_aud"
  let trustedAuthorizedParties ← getIndexed get "oauthbearer_trusted_azp"
  let requiredScopes ← getIndexed get "oauthbearer_required_scope"
  let disallowedUsernames ← getListOption get "oauthbearer_disallowed_username"
  .ok {
    uidAttr, grace
    trustedIssuer := trustedIssuer.filter (· ≠ "")
    jwksPath := jwksPath.filter (· ≠ "")
    trustedAudiences, trustedAuthorizedParties, requiredScopes, disallowedUsernames
    allowedAlgorithms, disallowedAlgorithms }

end CrudeOAuth
