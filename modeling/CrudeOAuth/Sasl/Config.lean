import CrudeOAuth.Core.Config
import CrudeOAuth.Core.Jwt.Verifier
import CrudeOAuth.Sasl.Ffi

/-!
# The configuration of the server mechanism

What the server plugin reads of its options when it is loaded (`sasl/src/config.rs`).
The files are a parameter, `readFile`, with the text of its error.
-/

namespace CrudeOAuth.Sasl

open Rust Rust.Outcome

variable {Jwk Key : Type}

structure ServerConfig (Key : Type) where
  tlsRequired : Bool
  verifier : JwtVerifier Key

/-- Why the plugin is not loaded; the source renders these as texts. -/
inductive ServerConfigError
  | options (e : OptionsError)
  /-- No trusted issuer configured -/
  | noTrustedIssuer
  /-- No JWKS configured -/
  | noJwks
  /-- failed to read JWKS …: … -/
  | readJwks (path e : String)
  | verifier (e : OAuthError)
  deriving DecidableEq, Repr

/-- A step of reading the options. -/
def ofOptions {α : Type} : Outcome OptionsError α → Outcome ServerConfigError α
  | .ok a => .ok a
  | .err e => .err (.options e)
  | .panic => .panic

def ServerConfig.fromSasl (jose : Jose Jwk Key) (readFile : String → Except String String) (utils : Utils) :
    Outcome ServerConfigError (ServerConfig Key) := do
  let options ← ofOptions (PolicyOptions.read utils.option)
  let noTls ← ofOptions (getOption utils.option "oauthbearer_no_tls")
  let trustedIssuer ← okOr options.trustedIssuer .noTrustedIssuer
  let jwksFilename ← okOr options.jwksPath .noJwks
  let jwksJson ← match readFile jwksFilename with
    | .ok text => .ok text
    | .error e => .err (.readJwks jwksFilename e)
  let policy : JwtPolicy := {
    uidAttr := options.uidAttr
    grace := options.grace
    trustedIssuer
    trustedAudiences := options.trustedAudiences
    trustedAuthorizedParties := options.trustedAuthorizedParties
    requiredScopes := options.requiredScopes
    disallowedUsernames := options.disallowedUsernames
    allowedAlgorithms := options.allowedAlgorithms
    disallowedAlgorithms := options.disallowedAlgorithms }
  match JwtVerifier.fromJwksJson jose policy jwksJson with
  | .ok verifier => .ok { tlsRequired := noTls ≠ some "1", verifier }
  | .error e => .err (.verifier e)

end CrudeOAuth.Sasl
