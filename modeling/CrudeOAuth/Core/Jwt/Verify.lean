import CrudeOAuth.Core.Jwt.Load

/-!
# What a verifier accepts

A verifier returns a name for a token exactly if every one of its checks passes
(`verify_eq_ok`): the checks on the form and the header of the token, on the key it
is verified with (`JwkMeta.Fits`), and on the claims (`Acceptable`). Each check has
its own lemma saying when it passes, for claims of any shape.

The claims are looked at only after the signature was checked: an error about claims
comes from a token that decodes (`decodes_of_verify_eq_error`).
-/

namespace CrudeOAuth

open Rust

variable {Jwk Key : Type}

/-! ## The metadata of a key -/

/-- A key with this metadata may verify tokens of the algorithm `a`. -/
structure JwkMeta.Fits (m : JwkMeta) (a : Algorithm) : Prop where
  use : ∀ value, m.use = some value → value = "sig"
  keyOps : m.keyOps = [] ∨ "verify" ∈ m.keyOps
  alg : ∀ value, m.alg = some value → value = algorithmName a
  kty : m.kty = a.keyType
  crv : ∀ curve, a.curve = some curve → m.crv = none ∨ m.crv = some curve

theorem JwkMeta.useAllows_iff {m : JwkMeta} :
    m.useAllows = true ↔ ∀ value, m.use = some value → value = "sig" := by
  simp [JwkMeta.useAllows, Option.all_eq_true]

theorem JwkMeta.keyOpsAllow_iff {m : JwkMeta} :
    m.keyOpsAllow = true ↔ m.keyOps = [] ∨ "verify" ∈ m.keyOps := by
  simp [JwkMeta.keyOpsAllow]

namespace JwtVerifier

theorem checkJwkMetadata_eq_ok {m : JwkMeta} {alg : Algorithm} {v : Unit} :
    checkJwkMetadata m alg = .ok v ↔ m.Fits alg := by
  simp only [checkJwkMetadata, except_bind_eq_ok, check_eq_ok, exists_const, JwkMeta.useAllows_iff,
    JwkMeta.keyOpsAllow_iff, algorithmMatchesKeyType_iff, Option.all_eq_true, beq_iff_eq,
    parseAlgorithmName_eq_some]
  constructor
  · rintro ⟨huse, hkeyOps, halg, hkty, hcrv⟩
    exact ⟨huse, hkeyOps, halg, hkty, hcrv⟩
  · rintro ⟨huse, hkeyOps, halg, hkty, hcrv⟩
    exact ⟨huse, hkeyOps, halg, hkty, hcrv⟩

theorem checkJwkMetadata_eq_error {m : JwkMeta} {alg : Algorithm} {e : OAuthError}
    (h : checkJwkMetadata m alg = .error e) : e = .invalidSignature := by
  simp only [checkJwkMetadata, except_bind_eq_error, check_eq_error] at h
  rcases h with ⟨-, rfl⟩ | ⟨-, -, ⟨-, rfl⟩ | ⟨-, -, ⟨-, rfl⟩ | ⟨-, -, -, rfl⟩⟩⟩ <;> rfl

/-! ## The claims -/

variable {self : JwtVerifier Key} {claims : Json.Value} {v : Unit}

theorem checkIssuer_eq_ok :
    self.checkIssuer claims = .ok v ↔ claims.get "iss" = some (.string self.policy.trustedIssuer) := by
  rw [checkIssuer, check_eq_ok, beq_iff_eq, Json.Value.bind_asStr_eq_some]

/-- The audience is a trusted one, or has a trusted one among several. -/
def TrustedAudience (policy : JwtPolicy) (aud : Option Json.Value) : Prop :=
  (∃ s, aud = some (.string s) ∧ s ∈ policy.trustedAudiences) ∨
    ∃ xs s, aud = some (.array xs) ∧ Json.Value.string s ∈ xs ∧ s ∈ policy.trustedAudiences

theorem checkAudience_eq_ok :
    self.checkAudience claims = .ok v ↔ TrustedAudience self.policy (claims.get "aud") := by
  rw [checkAudience, check_eq_ok, TrustedAudience]
  cases claims.get "aud" with
  | none => simp
  | some aud =>
    cases aud with
    | string s => simp
    | array xs =>
      simp only [List.any_eq_true, Json.Value.mem_filterMap_asStr, beq_iff_eq, exists_eq_right]
      simp
    | _ => simp

theorem checkAuthorizedParty_eq_ok :
    self.checkAuthorizedParty claims = .ok v ↔ self.policy.trustedAuthorizedParties = [] ∨
      ∃ azp ∈ self.policy.trustedAuthorizedParties, claims.get "azp" = some (.string azp) := by
  unfold checkAuthorizedParty
  split
  · rename_i h
    simp [h]
  · rename_i h
    simp only [except_bind_eq_ok, okOrElse_eq_ok, check_eq_ok, h, false_or, List.any_eq_true, beq_iff_eq,
      exists_eq_right, Json.Value.asStr_eq_some]
    constructor
    · rintro ⟨_, hazp, azp, rfl, hmem⟩
      exact ⟨azp, hmem, hazp⟩
    · rintro ⟨azp, hmem, hazp⟩
      exact ⟨_, hazp, azp, rfl, hmem⟩

theorem checkRequiredScopes_eq_ok :
    self.checkRequiredScopes claims = .ok v ↔ ∀ required ∈ self.policy.requiredScopes,
      ∃ scope, claims.get "scope" = some (.string scope) ∧ required ∈ splitAsciiWhitespace scope := by
  rw [checkRequiredScopes, forM_check_eq_ok]
  refine forall₂_congr fun required _ => ?_
  simp only [List.any_eq_true, beq_iff_eq, exists_eq_right, ← Json.Value.bind_asStr_eq_some]
  cases (claims.get "scope").bind Json.Value.asStr with
  -- A missing scope has no words.
  | none => simp [splitAsciiWhitespace, splitWhere]
  | some scope => simp

theorem checkUsername_eq_ok {username : String} :
    self.checkUsername username = .ok v ↔
      ∀ name ∈ self.policy.disallowedUsernames, eqIgnoreCase name username = false := by
  simp [checkUsername]

/-- The text is free of control characters, and of whitespace around it. -/
def Clean (s : String) : Prop := Trimmed s ∧ ∀ c ∈ s.toList, isControl c = false

theorem extractUid_eq_ok {u : String} :
    self.extractUid claims = .ok u ↔
      claims.get self.policy.uidAttr = some (.string u) ∧ u ≠ "" ∧ Clean u := by
  -- A name is refused, not trimmed: it is its own trimmed text.
  simp only [extractUid, except_bind_eq_ok, okOrElse_eq_ok, check_eq_ok, Option.filter_eq_some_iff,
    Json.Value.bind_asStr_eq_some, Clean, ← trim_eq_self]
  constructor
  · rintro ⟨uid, ⟨hget, hne⟩, -, hclean, h⟩
    cases h
    simp_all
  · rintro ⟨hget, hne, hclean⟩
    exact ⟨u, ⟨hget, by simpa using hne⟩, (), by simpa using hclean, rfl⟩

/-- The claims are accepted at `now`, for the name `u`. -/
structure Acceptable (verifier : JwtVerifier Key) (now : Option UInt64) (claims : Json.Value) (u : String) :
    Prop where
  issuer : claims.get "iss" = some (.string verifier.policy.trustedIssuer)
  audience : TrustedAudience verifier.policy (claims.get "aud")
  authorizedParty : verifier.policy.trustedAuthorizedParties = [] ∨
    ∃ azp ∈ verifier.policy.trustedAuthorizedParties, claims.get "azp" = some (.string azp)
  dates : verifier.checkValidityDates now claims = .ok ()
  scopes : ∀ required ∈ verifier.policy.requiredScopes,
    ∃ scope, claims.get "scope" = some (.string scope) ∧ required ∈ splitAsciiWhitespace scope
  uid : claims.get verifier.policy.uidAttr = some (.string u)
  uid_ne : u ≠ ""
  clean : Clean u
  allowed : ∀ name ∈ verifier.policy.disallowedUsernames, eqIgnoreCase name u = false

/-! ## The token -/

/-- The token carries the claims, signed with the key its header names: it has the form
    of a token, its algorithm is allowed, and it decodes with that very key, which fits
    the algorithm. -/
def Carries (jose : Jose Jwk Key) (self : JwtVerifier Key) (token : String) (claims : Json.Value) : Prop :=
  16 ≤ (utf8 token).length ∧ (utf8 token).count '.'.toUInt8 = 2 ∧
    ∃ header, jose.decodeHeader token = some header ∧
      header.alg ∈ self.policy.allowedAlgorithms.getD legacyAllowedAlgorithms ∧
      header.alg ∉ self.policy.disallowedAlgorithms ∧
      ∃ kid k, header.kid = some kid ∧ self.keys.lookup kid = some k ∧ k.jwkMeta.Fits header.alg ∧
        jose.decode token k.key (validation jose header.alg) = .ok claims

variable {jose : Jose Jwk Key} {now : Option UInt64} {token : String}

theorem algorithmAllowed_iff {alg : Algorithm} :
    self.algorithmAllowed alg = true ↔
      alg ∈ self.policy.allowedAlgorithms.getD legacyAllowedAlgorithms ∧
        alg ∉ self.policy.disallowedAlgorithms := by
  simp [algorithmAllowed]

/-- The form of a token, as it is checked first. -/
theorem form_iff {n m : Nat} : (!(n < minJwtLen || m ≠ 2)) = true ↔ 16 ≤ n ∧ m = 2 := by
  rw [Bool.not_eq_true', Bool.or_eq_false_iff, decide_eq_false_iff_not, decide_eq_false_iff_not, minJwtLen]
  omega

/-- A verifier returns a name exactly for a token that carries acceptable claims. -/
theorem verify_eq_ok_iff {u : String} :
    self.verify jose now token = .ok u ↔
      ∃ claims, Carries jose self token claims ∧ Acceptable self now claims u := by
  simp only [verify, except_bind_eq_ok, okOrElse_eq_ok, check_eq_ok, exists_const, form_iff,
    algorithmAllowed_iff, checkJwkMetadata_eq_ok, mapError_eq_ok, checkIssuer_eq_ok, checkAudience_eq_ok,
    checkAuthorizedParty_eq_ok, checkRequiredScopes_eq_ok, extractUid_eq_ok, checkUsername_eq_ok]
  constructor
  · rintro ⟨⟨hlen, hdots⟩, header, hheader, ⟨halg, hdis⟩, kid, hkid, k, hk, hfits, claims, hdecode,
      hiss, haud, hazp, _, hdates, hscopes, uid, ⟨huid, hne, hclean⟩, hallowed, h⟩
    cases h
    exact ⟨claims, ⟨hlen, hdots, header, hheader, halg, hdis, kid, k, hkid, hk, hfits, hdecode⟩,
      ⟨hiss, haud, hazp, hdates, hscopes, huid, hne, hclean, hallowed⟩⟩
  · rintro ⟨claims, ⟨hlen, hdots, header, hheader, halg, hdis, kid, k, hkid, hk, hfits, hdecode⟩,
      ⟨hiss, haud, hazp, hdates, hscopes, huid, hne, hclean, hallowed⟩⟩
    exact ⟨⟨hlen, hdots⟩, header, hheader, ⟨halg, hdis⟩, kid, hkid, k, hk, hfits, claims, hdecode,
      hiss, haud, hazp, (), hdates, hscopes, u, ⟨huid, hne, hclean⟩, hallowed, rfl⟩

/-- The name of a token contains no NUL, which is a control character. -/
theorem nul_notMem_of_verify {u : String} (h : self.verify jose now token = .ok u) : 0 ∉ utf8 u := by
  obtain ⟨claims, -, hc⟩ := verify_eq_ok_iff.1 h
  intro hm
  have hnul := hc.clean.2 _ ((@mem_utf8_ascii u '\x00' (by decide)).1 hm)
  exact absurd hnul (by decide)

end JwtVerifier

/-- The error tells something about the claims of a token. -/
def OAuthError.concernsClaims : OAuthError → Bool
  | parseError | invalidSignature | unknownSigningKey _ => false
  | _ => true

namespace JwtVerifier

variable {self : JwtVerifier Key} {jose : Jose Jwk Key} {now : Option UInt64} {token : String}

theorem decodeError_concernsClaims (k : ErrorKind) : (decodeError k).concernsClaims = false := by
  cases k <;> rfl

/-- An error about claims comes from a token that carries claims. -/
theorem carries_of_verify_eq_error {e : OAuthError} (h : self.verify jose now token = .error e)
    (he : e.concernsClaims = true) : ∃ claims, Carries jose self token claims := by
  -- None of the errors that can occur before the claims are there is about claims.
  have hno : ∀ {p : Prop} {e' : OAuthError}, p ∧ e' = e → e'.concernsClaims = false → False := by
    rintro _ _ ⟨-, rfl⟩ hf
    exact absurd (hf.symm.trans he) (by decide)
  rcases except_bind_eq_error.1 h with h | ⟨_, hform, h⟩
  · exact (hno (check_eq_error.1 h) rfl).elim
  rcases except_bind_eq_error.1 h with h | ⟨header, hheader, h⟩
  · exact (hno (okOrElse_eq_error.1 h) rfl).elim
  rcases except_bind_eq_error.1 h with h | ⟨_, halg, h⟩
  · exact (hno (check_eq_error.1 h) rfl).elim
  rcases except_bind_eq_error.1 h with h | ⟨kid, hkid, h⟩
  · exact (hno (okOrElse_eq_error.1 h) rfl).elim
  rcases except_bind_eq_error.1 h with h | ⟨k, hk, h⟩
  · exact (hno (okOrElse_eq_error.1 h) rfl).elim
  rcases except_bind_eq_error.1 h with h | ⟨_, hfits, h⟩
  · exact (hno ⟨trivial, (checkJwkMetadata_eq_error h).symm⟩ rfl).elim
  rcases except_bind_eq_error.1 h with h | ⟨claims, hdecode, -⟩
  · obtain ⟨k, -, rfl⟩ := mapError_eq_error.1 h
    exact absurd ((decodeError_concernsClaims k).symm.trans he) (by decide)
  obtain ⟨hlen, hdots⟩ := form_iff.1 (check_eq_ok.1 hform)
  obtain ⟨hallowed, hdis⟩ := algorithmAllowed_iff.1 (check_eq_ok.1 halg)
  exact ⟨claims, hlen, hdots, header, okOrElse_eq_ok.1 hheader, hallowed, hdis, kid, k,
    okOrElse_eq_ok.1 hkid, okOrElse_eq_ok.1 hk, checkJwkMetadata_eq_ok.1 hfits, mapError_eq_ok.1 hdecode⟩

end JwtVerifier

/-! ## A verifier

The policy of the tests of the source, a JWKS with one key, and a token it signed. -/

namespace Fixture

def policy : JwtPolicy where
  uidAttr := "preferred_username"
  grace := 3
  trustedIssuer := "https://sso.example.org/realms/master"
  trustedAudiences := ["ldaps://example.org/"]
  trustedAuthorizedParties := []
  requiredScopes := ["openid"]
  disallowedUsernames := ["root"]
  allowedAlgorithms := none
  disallowedAlgorithms := []

def jwksJson : String :=
  "\x7b\"keys\":[\x7b\"kty\":\"RSA\",\"kid\":\"sig\",\"use\":\"sig\",\"alg\":\"RS256\",\"n\":\"AQ\",\"e\":\"AQAB\"\x7d]\x7d"

def jwks : Json.Value :=
  .object [("keys", .array [.object [("kty", .string "RSA"), ("kid", .string "sig"), ("use", .string "sig"),
    ("alg", .string "RS256"), ("n", .string "AQ"), ("e", .string "AQAB")]])]

def token : String := "aGVhZGVy.cGF5bG9hZA.c2lnbmF0dXJl"

def claims : Json.Value :=
  .object [("iss", .string "https://sso.example.org/realms/master"),
    ("aud", .array [.string "account", .string "ldaps://example.org/"]),
    ("exp", .number (.posInt 1300)), ("iat", .number (.posInt 1000)),
    ("preferred_username", .string "administrator"), ("scope", .string "openid profile email")]

/-- The validation that `jsonwebtoken` starts from. -/
def validation (alg : Algorithm) : Validation where
  requiredSpecClaims := ["exp"]
  leeway := 60
  validateExp := true
  validateNbf := false
  aud := none
  iss := none
  sub := none
  algorithms := [alg]

/-- RSA keys are parsed to their modulus and exponent; the token is the only one that
    decodes, with the one key. -/
def jose : Jose (String × String) (String × String) where
  parseJson text := if text = jwksJson then .ok jwks else .error "expected value at line 1 column 1"
  parseJwk v := match v.get "kty", v.get "n", v.get "e" with
    | some (.string "RSA"), some (.string n), some (.string e) => some (n, e)
    | _, _, _ => none
  fromJwk := some
  decodeHeader t := if t = token then some { alg := .RS256, kid := some "sig" } else none
  newValidation := validation
  decode t key validation :=
    if t = token ∧ key = ("AQ", "AQAB") ∧ validation.algorithms = [.RS256] then .ok claims
    else .error .invalidSignature

def verifier : JwtVerifier (String × String) where
  policy := policy
  keys := (∅ : HashMap _ _).insert "sig" ⟨("AQ", "AQAB"), ⟨some "RS256", some "sig", [], "RSA", none⟩⟩

theorem fromJwksJson_eq : JwtVerifier.fromJwksJson jose policy jwksJson = .ok verifier := rfl

theorem verify_token : verifier.verify jose (some 1000) token = .ok "administrator" := by decide +kernel

end Fixture

namespace JwtVerifier

/-- A verifier loaded from a JWKS returns a name for a token exactly if the token carries
    acceptable claims; and only of a token that carries claims does it report an error
    about claims. -/
theorem verify_iff {policy : JwtPolicy} {jwksJson : String}
    (hload : fromJwksJson jose policy jwksJson = .ok self) (now : Option UInt64) (token : String) :
    self.policy = policy ∧
      (∀ u, self.verify jose now token = .ok u ↔
        ∃ claims, Carries jose self token claims ∧ Acceptable self now claims u) ∧
      ∀ e, self.verify jose now token = .error e → e.concernsClaims = true →
        ∃ claims, Carries jose self token claims :=
  ⟨policy_of_fromJwksJson hload, fun _ => verify_eq_ok_iff, fun _ => carries_of_verify_eq_error⟩

theorem verify_iff_fixture :
    ∃ claims, Carries Fixture.jose Fixture.verifier Fixture.token claims ∧
      Acceptable Fixture.verifier (some 1000) claims "administrator" :=
  ((verify_iff Fixture.fromJwksJson_eq (some 1000) Fixture.token).2.1 _).1 Fixture.verify_token

end JwtVerifier

end CrudeOAuth
