import CrudeOAuth.Pam.Args

/-!
# Configurations of the PAM module

A configuration is a record of options with the verifier built from it
(`pam/src/cache.rs`). This module says what is built; when it is built anew, and when
an earlier one is returned, is the matter of the cache.
-/

namespace CrudeOAuth.Pam

open Rust

variable {Jwk Key : Type}

/-- Why there is no verifier; the source renders these as texts. The first two are
    `CacheError::Read`. -/
inductive CacheError
  /-- iss and/or jwks missing -/
  | missing
  /-- failed to read JWKS …: … -/
  | readJwks (path e : String)
  | build (e : OAuthError)
  deriving DecidableEq, Repr

def PamArgs.policy (args : PamArgs) (trustedIssuer : String) : JwtPolicy where
  uidAttr := args.userid
  grace := args.grace
  trustedIssuer := trustedIssuer
  trustedAudiences := args.trustedAud
  trustedAuthorizedParties := args.trustedAzp
  requiredScopes := args.requiredScope
  disallowedUsernames := args.disallowedUsernames
  allowedAlgorithms := args.allowedAlgorithms
  disallowedAlgorithms := args.disallowedAlgorithms

/-- The issuer and the path of the JWKS. -/
def PamArgs.source (args : PamArgs) : Except CacheError (String × String) :=
  match args.iss, args.jwks with
  | some iss, some jwksPath => .ok (iss, jwksPath)
  | _, _ => .error .missing

theorem PamArgs.source_eq_ok {args : PamArgs} {iss jwksPath : String} :
    args.source = .ok (iss, jwksPath) ↔ args.iss = some iss ∧ args.jwks = some jwksPath := by
  unfold PamArgs.source
  cases args.iss <;> cases args.jwks <;> simp

def PamArgs.build (jose : Jose Jwk Key) (args : PamArgs) (iss jwksJson : String) :
    Except CacheError (JwtVerifier Key) :=
  (JwtVerifier.fromJwksJson jose (args.policy iss) jwksJson).mapError .build

/-- The verifier that the options and the text of the JWKS give. -/
def PamArgs.verifier (jose : Jose Jwk Key) (args : PamArgs) (readFile : String → Except String String) :
    Except CacheError (JwtVerifier Key) := do
  let (iss, jwksPath) ← args.source
  let jwksJson ← (readFile jwksPath).mapError (.readJwks jwksPath)
  args.build jose iss jwksJson

/-- A configuration for the arguments of the stack, and what asking it for its verifier
    answers. -/
structure Config (raw : List String) (Key : Type) where
  args : PamArgs
  loaded : args.LoadedFrom raw
  verifier : Except CacheError (JwtVerifier Key)

end CrudeOAuth.Pam
