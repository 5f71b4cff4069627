import Mathlib.Tactic.Common

/-!
# Signature algorithms

The JWS algorithms of `jsonwebtoken`, their names, and which of them a key of a
given type can verify (`core/src/jwt.rs`).

`algorithmMatchesKeyType` looks at the `kty` and `crv` members of a key. It lets a
key of type `EC` or `OKP` pass without a curve; that such a key never gets this far
is up to the parser of keys.
-/

namespace CrudeOAuth

/-- `jsonwebtoken::Algorithm` -/
inductive Algorithm
  | HS256 | HS384 | HS512
  | ES256 | ES384
  | RS256 | RS384 | RS512
  | PS256 | PS384 | PS512
  | EdDSA
  deriving DecidableEq, Repr

open Algorithm

/-- What is accepted when no `oauthbearer_allowed_alg` option is configured. -/
def legacyAllowedAlgorithms : List Algorithm :=
  [RS256, RS384, RS512, PS256, PS384, PS512, ES256, ES384, EdDSA]

def parseAlgorithmName (value : String) : Option Algorithm :=
  match value with
  | "HS256" => some HS256
  | "HS384" => some HS384
  | "HS512" => some HS512
  | "ES256" => some ES256
  | "ES384" => some ES384
  | "RS256" => some RS256
  | "RS384" => some RS384
  | "RS512" => some RS512
  | "PS256" => some PS256
  | "PS384" => some PS384
  | "PS512" => some PS512
  | "EdDSA" => some EdDSA
  | _ => none

def algorithmName : Algorithm → String
  | HS256 => "HS256"
  | HS384 => "HS384"
  | HS512 => "HS512"
  | ES256 => "ES256"
  | ES384 => "ES384"
  | RS256 => "RS256"
  | RS384 => "RS384"
  | RS512 => "RS512"
  | PS256 => "PS256"
  | PS384 => "PS384"
  | PS512 => "PS512"
  | EdDSA => "EdDSA"

/-- An algorithm is parsed from its own name only. -/
theorem parseAlgorithmName_eq_some {value : String} {alg : Algorithm} :
    parseAlgorithmName value = some alg ↔ value = algorithmName alg := by
  constructor
  · intro h
    unfold parseAlgorithmName at h
    split at h <;> first | (obtain rfl := Option.some.inj h; rfl) | cases h
  · rintro rfl
    cases alg <;> rfl

/-- The algorithms an RSA key verifies. -/
def Algorithm.isRsa (alg : Algorithm) : Bool :=
  alg ∈ [RS256, RS384, RS512, PS256, PS384, PS512]

/-- The algorithms that sign with a shared secret. -/
def Algorithm.isHmac (alg : Algorithm) : Bool := alg ∈ [HS256, HS384, HS512]

def algorithmMatchesKeyType (alg : Algorithm) (kty : String) (crv : Option String) : Bool :=
  match kty with
  | "RSA" => alg.isRsa
  | "EC" =>
    match alg with
    | ES256 => crv == none || crv == some "P-256"
    | ES384 => crv == none || crv == some "P-384"
    | _ => false
  | "OKP" => alg == EdDSA && (crv == none || crv == some "Ed25519")
  | "oct" => alg.isHmac
  | _ => false

/-- The type of the keys an algorithm is verified with. -/
def Algorithm.keyType : Algorithm → String
  | ES256 | ES384 => "EC"
  | RS256 | RS384 | RS512 | PS256 | PS384 | PS512 => "RSA"
  | EdDSA => "OKP"
  | HS256 | HS384 | HS512 => "oct"

/-- The curve of the keys an algorithm is verified with, where these have one. -/
def Algorithm.curve : Algorithm → Option String
  | ES256 => some "P-256"
  | ES384 => some "P-384"
  | EdDSA => some "Ed25519"
  | _ => none

/-- A key matches an algorithm if it has the type and, as far as it names one, the
    curve of the algorithm. -/
theorem algorithmMatchesKeyType_iff {alg : Algorithm} {kty : String} {crv : Option String} :
    algorithmMatchesKeyType alg kty crv = true ↔
      kty = alg.keyType ∧ ∀ c, alg.curve = some c → crv = none ∨ crv = some c := by
  unfold algorithmMatchesKeyType
  split <;> cases alg <;> simp_all [Algorithm.isRsa, Algorithm.isHmac, Algorithm.keyType, Algorithm.curve]

/-- Shared secrets, and nothing else, are keys of type `oct`. -/
theorem Algorithm.keyType_eq_oct {alg : Algorithm} : alg.keyType = "oct" ↔ alg.isHmac = true := by
  cases alg <;> decide

end CrudeOAuth
