import CrudeOAuth.Core.Jwt.Algorithm
import CrudeOAuth.Rust.Int
import CrudeOAuth.Rust.Json
import CrudeOAuth.Rust.Outcome
import CrudeOAuth.Rust.Text
import Mathlib.Data.Finmap

/-!
# The JWT verifier

The verifier of access tokens (`core/src/jwt.rs`). `JwtVerifier.fromJwksJson` loads
the keys of a JWKS text under a policy, and `JwtVerifier.verify` judges a token by
them.

What is called of `serde_json` and `jsonwebtoken` is a parameter, `Jose`: parsing
JSON, making a decoding key of a JWK, decoding a token without and with its
signature, and what is validated of a token by default. The clock is a parameter of
`verify`.
-/

namespace CrudeOAuth

open Rust

/-! ## Errors -/

/-- The texts of `OAuthError::ConfigError`. -/
inductive ConfigError
  /-- no trusted audiences configured -/
  | noTrustedAudiences
  /-- no trusted issuer configured -/
  | noTrustedIssuer
  /-- oauthbearer_allowed_alg was configured but contains no algorithms -/
  | noAllowedAlgorithms
  /-- invalid JWKS JSON: … -/
  | invalidJwksJson (e : String)
  /-- JWKS has no keys array -/
  | noKeysArray
  /-- JWKS contains no keys -/
  | noKeys
  /-- JWKS key is not an object -/
  | keyNotObject
  /-- duplicate JWK kid … -/
  | duplicateKid (kid : String)
  /-- JWKS contains no usable signature verification keys -/
  | noUsableKeys
  /-- system time is before UNIX epoch -/
  | clockBeforeEpoch
  deriving DecidableEq, Repr

inductive OAuthError
  | missingUidClaim (claim : String)
  | invalidUidClaim (claim : String)
  | disallowedUsername (username : String)
  | parseError
  | invalidIssuer (found : Option String)
  | invalidAudience
  | missingScope (scope : String)
  | invalidAuthorizedParty (found : Option String)
  | missingExpiration
  | claimExpired
  | invalidSignature
  | unknownSigningKey (kid : Option String)
  | configError (e : ConfigError)
  deriving DecidableEq, Repr

/-! ## Keys and policies -/

/-- The metadata of a JWK, read from its members: a member of another type than
    expected reads as a missing one. -/
structure JwkMeta where
  alg : Option String
  use : Option String
  keyOps : List String
  kty : String
  crv : Option String
  deriving DecidableEq, Repr

structure SigningKey (Key : Type) where
  key : Key
  jwkMeta : JwkMeta
  deriving DecidableEq, Repr

structure JwtPolicy where
  uidAttr : String
  grace : Int64
  trustedIssuer : String
  trustedAudiences : List String
  trustedAuthorizedParties : List String
  requiredScopes : List String
  disallowedUsernames : List String
  /-- `none` is the legacy list. -/
  allowedAlgorithms : Option (List Algorithm)
  disallowedAlgorithms : List Algorithm
  deriving DecidableEq

/-- `HashMap<α, β>` -/
abbrev HashMap (α β : Type) := Finmap fun _ : α => β

structure JwtVerifier (Key : Type) where
  policy : JwtPolicy
  keys : HashMap String (SigningKey Key)

/-! ## The libraries -/

/-- `jsonwebtoken::Header` -/
structure Header where
  typ : Option String := none
  alg : Algorithm
  cty : Option String := none
  jku : Option String := none
  jwk : Option Json.Value := none
  kid : Option String := none
  x5u : Option String := none
  x5c : Option (List String) := none
  x5t : Option String := none
  x5tS256 : Option String := none

/-- `jsonwebtoken::Validation` -/
structure Validation where
  requiredSpecClaims : List String
  leeway : UInt64
  validateExp : Bool
  validateNbf : Bool
  aud : Option (List String)
  iss : Option (List String)
  sub : Option String
  algorithms : List Algorithm
  deriving DecidableEq

/-- `jsonwebtoken::errors::ErrorKind`, as far as it is told apart. -/
inductive ErrorKind
  | invalidToken
  | invalidSignature
  | invalidAlgorithm
  | base64
  | json
  | other
  deriving DecidableEq, Repr

/-- What is called of `serde_json` and `jsonwebtoken`. -/
structure Jose (Jwk Key : Type) where
  /-- `serde_json::from_str::<Value>`, with the text of its error. -/
  parseJson : String → Except String Json.Value
  /-- `serde_json::from_value::<Jwk>(v).ok()` -/
  parseJwk : Json.Value → Option Jwk
  /-- `DecodingKey::from_jwk(&jwk).ok()` -/
  fromJwk : Jwk → Option Key
  /-- `decode_header(token).ok()` -/
  decodeHeader : String → Option Header
  /-- `Validation::new(alg)` -/
  newValidation : Algorithm → Validation
  /-- `decode::<Value>(token, &key, &validation)`, with the claims or the kind of its error. -/
  decode : String → Key → Validation → Except ErrorKind Json.Value

variable {Jwk Key : Type}

/-! ## Loading the keys -/

/-- The members of a JWK that are not shown to the parser of `jsonwebtoken`. -/
def strippedMembers : List String := ["alg", "use", "key_ops"]

/-- The JWK without its stripped members. -/
def stripMeta (obj : List (String × Json.Value)) : Json.Value :=
  .object (obj.filter (·.1 ∉ strippedMembers))

def JwkMeta.ofObject (obj : List (String × Json.Value)) : JwkMeta where
  alg := (obj.lookup "alg").bind Json.Value.asStr
  use := (obj.lookup "use").bind Json.Value.asStr
  keyOps := (((obj.lookup "key_ops").bind Json.Value.asArray).map
    (·.filterMap Json.Value.asStr)).getD []
  kty := ((obj.lookup "kty").bind Json.Value.asStr).getD ""
  crv := (obj.lookup "crv").bind Json.Value.asStr

/-- The key may be used for signatures, as far as `use` says. -/
def JwkMeta.useAllows (m : JwkMeta) : Bool := m.use.all (· == "sig")

/-- The key may be used for verifying, as far as `key_ops` says. -/
def JwkMeta.keyOpsAllow (m : JwkMeta) : Bool := m.keyOps.isEmpty || m.keyOps.any (· == "verify")

/-- The key is for an algorithm that is supported, as far as `alg` says. -/
def JwkMeta.algSupported (m : JwkMeta) : Bool := m.alg.all fun value => (parseAlgorithmName value).isSome

/-- The state of the loop over the keys. -/
structure LoadState (Key : Type) where
  seenKids : Finset String
  keys : HashMap String (SigningKey Key)

/-- The body of the loop over the keys. -/
def loadKey (jose : Jose Jwk Key) (st : LoadState Key) (rawKey : Json.Value) :
    Except OAuthError (LoadState Key) := do
  let obj ← okOrElse rawKey.asObject (.configError .keyNotObject)
  match (obj.lookup "kid").bind Json.Value.asStr with
  | none => .ok st
  | some kid =>
    check (kid ∉ st.seenKids) (.configError (.duplicateKid kid))
    let st := { st with seenKids := insert kid st.seenKids }
    let jwkMeta := JwkMeta.ofObject obj
    if !jwkMeta.useAllows then .ok st
    else if !jwkMeta.keyOpsAllow then .ok st
    else if !jwkMeta.algSupported then .ok st
    else match jose.parseJwk (stripMeta obj) with
      | none => .ok st
      | some jwk => match jose.fromJwk jwk with
        | none => .ok st
        | some key => .ok { st with keys := st.keys.insert kid { key, jwkMeta } }

def JwtVerifier.fromJwksJson (jose : Jose Jwk Key) (policy : JwtPolicy) (jwksJson : String) :
    Except OAuthError (JwtVerifier Key) := do
  check (policy.trustedAudiences ≠ []) (.configError .noTrustedAudiences)
  check (policy.trustedIssuer ≠ "") (.configError .noTrustedIssuer)
  check (policy.allowedAlgorithms ≠ some []) (.configError .noAllowedAlgorithms)
  let raw ← (jose.parseJson jwksJson).mapError fun e => .configError (.invalidJwksJson e)
  let rawKeys ← okOrElse ((raw.get "keys").bind Json.Value.asArray) (.configError .noKeysArray)
  check (!rawKeys.isEmpty) (.configError .noKeys)
  let st ← rawKeys.foldlM (loadKey jose) { seenKids := ∅, keys := ∅ }
  check (st.keys.keys ≠ ∅) (.configError .noUsableKeys)
  .ok { policy, keys := st.keys }

/-! ## Verifying a token -/

def minJwtLen : Nat := 16

def numericDate (value : Option Json.Value) : Except OAuthError (Option Int64) :=
  match value with
  | none => .ok none
  | some value =>
    match value.asI64 with
    | some v => .ok (some v)
    | none =>
      match value.asU64 with
      | some v => if v.toNat < 2 ^ 63 then .ok (some v.toInt64) else .error .claimExpired
      | none =>
        match value.asFloat with
        | some v =>
          if -2 ^ 63 ≤ v ∧ v ≤ 2 ^ 63 then .ok (some (Json.roundToI64 v)) else .error .claimExpired
        | none => .error .claimExpired

namespace JwtVerifier

variable (self : JwtVerifier Key)

def algorithmAllowed (alg : Algorithm) : Bool :=
  alg ∈ self.policy.allowedAlgorithms.getD legacyAllowedAlgorithms &&
    alg ∉ self.policy.disallowedAlgorithms

/-- `check_jwk_metadata`, which does not depend on the policy. -/
def checkJwkMetadata (jwkMeta : JwkMeta) (alg : Algorithm) : Except OAuthError Unit := do
  check jwkMeta.useAllows .invalidSignature
  check jwkMeta.keyOpsAllow .invalidSignature
  check (jwkMeta.alg.all fun expected => parseAlgorithmName expected == some alg) .invalidSignature
  check (algorithmMatchesKeyType alg jwkMeta.kty jwkMeta.crv) .invalidSignature

def checkIssuer (claims : Json.Value) : Except OAuthError Unit :=
  let found := (claims.get "iss").bind Json.Value.asStr
  check (found == some self.policy.trustedIssuer) (.invalidIssuer found)

def checkAudience (claims : Json.Value) : Except OAuthError Unit :=
  let valid := match claims.get "aud" with
    | some (.string aud) => self.policy.trustedAudiences.any (· == aud)
    | some (.array audiences) => (audiences.filterMap Json.Value.asStr).any fun aud =>
      self.policy.trustedAudiences.any (· == aud)
    | _ => false
  check valid .invalidAudience

def checkAuthorizedParty (claims : Json.Value) : Except OAuthError Unit :=
  if self.policy.trustedAuthorizedParties = [] then .ok () else do
    let azp ← okOrElse (claims.get "azp") (.invalidAuthorizedParty none)
    let azp ← okOrElse azp.asStr (.invalidAuthorizedParty none)
    check (self.policy.trustedAuthorizedParties.any (· == azp)) (.invalidAuthorizedParty (some azp))

/-- The dates are judged at `now`, in seconds since the epoch; `none` is a clock before
    the epoch. -/
def checkValidityDates (now : Option UInt64) (claims : Json.Value) : Except OAuthError Unit := do
  let now ← okOrElse now (.configError .clockBeforeEpoch)
  let now := now.toInt64
  let grace := max self.policy.grace 0
  let exp ← match numericDate (claims.get "exp") with
    | .ok (some exp) => .ok exp
    | .ok none | .error _ => .error .missingExpiration
  let nbf ← numericDate (claims.get "nbf")
  let iat ← numericDate (claims.get "iat")
  let nbfInFuture := nbf.any (· > saturatingAdd now grace)
  let iatInFuture := iat.any (· > saturatingAdd now grace)
  check (!(exp < saturatingSub now grace || nbfInFuture || iatInFuture)) .claimExpired

def checkRequiredScopes (claims : Json.Value) : Except OAuthError Unit :=
  let scope := ((claims.get "scope").bind Json.Value.asStr).getD ""
  self.policy.requiredScopes.forM fun required =>
    check ((splitAsciiWhitespace scope).any (· == required)) (.missingScope required)

def checkUsername (username : String) : Except OAuthError Unit :=
  check (!self.policy.disallowedUsernames.any (eqIgnoreCase · username)) (.disallowedUsername username)

def extractUid (claims : Json.Value) : Except OAuthError String := do
  let uid ← okOrElse (((claims.get self.policy.uidAttr).bind Json.Value.asStr).filter (· ≠ ""))
    (.missingUidClaim self.policy.uidAttr)
  check (!(trim uid ≠ uid || uid.toList.any isControl)) (.invalidUidClaim self.policy.uidAttr)
  .ok uid

/-- The validation given to `decode`: the dates and the other claims are left to the
    checks below. -/
def validation (jose : Jose Jwk Key) (alg : Algorithm) : Validation :=
  { jose.newValidation alg with requiredSpecClaims := [], validateExp := false, validateNbf := false }

/-- The error of a token that does not decode. -/
def decodeError : ErrorKind → OAuthError
  | .invalidSignature | .invalidAlgorithm => .invalidSignature
  | .json | .base64 | .invalidToken => .parseError
  | .other => .invalidSignature

def verify (jose : Jose Jwk Key) (now : Option UInt64) (token : String) : Except OAuthError String := do
  check (!((utf8 token).length < minJwtLen || (utf8 token).count '.'.toUInt8 ≠ 2)) .parseError
  let header ← okOrElse (jose.decodeHeader token) .parseError
  check (self.algorithmAllowed header.alg) .invalidSignature
  let kid ← okOrElse header.kid (.unknownSigningKey none)
  let signingKey ← okOrElse (self.keys.lookup kid) (.unknownSigningKey (some kid))
  checkJwkMetadata signingKey.jwkMeta header.alg
  let claims ← (jose.decode token signingKey.key (validation jose header.alg)).mapError decodeError
  self.checkIssuer claims
  self.checkAudience claims
  self.checkAuthorizedParty claims
  self.checkValidityDates now claims
  self.checkRequiredScopes claims
  let uid ← self.extractUid claims
  self.checkUsername uid
  .ok uid

end JwtVerifier

end CrudeOAuth
