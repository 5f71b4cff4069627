import CrudeOAuth.Core.Jwt.Jwks

/-!
# The metadata of a JWK

The members `use`, `alg` and `key_ops` of a JWK, when present, should be compatible with
what its key is used for (`Compatible`). They are read so that a member of another type is
one that is missing: a token is verified with a key whose metadata is compatible exactly
if its members have the types that they should have (`compatible_iff`).
-/

namespace CrudeOAuth

open Rust

variable {Jwk Key : Type} {jose : Jose Jwk Key} {obj : List (String × Json.Value)} {a : Algorithm}

/-- The metadata of the JWK, as far as it is present, says that its key verifies signatures of
    the algorithm. -/
structure Compatible (obj : List (String × Json.Value)) (a : Algorithm) : Prop where
  use : ∀ v, obj.lookup "use" = some v → v = .string "sig"
  alg : ∀ v, obj.lookup "alg" = some v → v = .string (algorithmName a)
  keyOps : ∀ v, obj.lookup "key_ops" = some v → ∃ ops, v = .array ops ∧ .string "verify" ∈ ops

/-- The metadata of the JWK, as far as it is present, consists of texts; an array that holds
    none is not a list of operations. -/
structure WellTyped (obj : List (String × Json.Value)) : Prop where
  use : ∀ v, obj.lookup "use" = some v → ∃ s, v = .string s
  alg : ∀ v, obj.lookup "alg" = some v → ∃ s, v = .string s
  keyOps : ∀ v, obj.lookup "key_ops" = some v → ∃ ops s, v = .array ops ∧ .string s ∈ ops

theorem Compatible.wellTyped (h : Compatible obj a) : WellTyped obj where
  use v hv := ⟨_, h.use v hv⟩
  alg v hv := ⟨_, h.alg v hv⟩
  keyOps v hv := by
    obtain ⟨ops, hops, hverify⟩ := h.keyOps v hv
    exact ⟨ops, _, hops, hverify⟩

/-- What the metadata that was read allows is compatible if nothing else was there to read. -/
theorem WellTyped.compatible (h : WellTyped obj) (hfits : (JwkMeta.ofObject obj).Fits a) :
    Compatible obj a where
  use v hv := by
    obtain ⟨s, rfl⟩ := h.use v hv
    rw [hfits.use s (Json.Value.bind_asStr_eq_some.2 hv)]
  alg v hv := by
    obtain ⟨s, rfl⟩ := h.alg v hv
    rw [hfits.alg s (Json.Value.bind_asStr_eq_some.2 hv)]
  keyOps v hv := by
    obtain ⟨ops, s, rfl, hs⟩ := h.keyOps v hv
    exact ⟨ops, rfl, keyOpsAllow_ofObject.1 (JwkMeta.keyOpsAllow_iff.2 hfits.keyOps) ops s hv hs⟩

/-- A token is verified with the key of the one element that has its `kid`, and the metadata
    of this element is compatible with the algorithm of the token exactly if its members have
    the types that they should have. -/
theorem compatible_iff {policy : JwtPolicy} {jwksJson : String} {self : JwtVerifier Key}
    (hload : JwtVerifier.fromJwksJson jose policy jwksJson = .ok self) {now : Option UInt64}
    {token u : String} (hverify : self.verify jose now token = .ok u) :
    ∃ header kid rawKeys pre obj post, jose.decodeHeader token = some header ∧ header.kid = some kid ∧
      jwksKeys jose jwksJson = some rawKeys ∧ rawKeys = pre ++ .object obj :: post ∧
      kidOf (.object obj) = some kid ∧ (∀ other ∈ pre ++ post, kidOf other ≠ some kid) ∧
      (Compatible obj header.alg ↔ WellTyped obj) := by
  obtain ⟨-, rawKeys, hrawKeys, -, -, hnodup, -, rfl⟩ := fromJwksJson_eq_ok.1 hload
  obtain ⟨claims, ⟨-, -, header, hheader, -, -, kid, k, hkid, hk, hfits, -⟩, -⟩ :=
    JwtVerifier.verify_eq_ok_iff.1 hverify
  obtain ⟨pre, obj, post, rfl, hobj, hpre, hpost, hkey⟩ := exists_of_lookup_loadKeys hnodup hk
  obtain ⟨-, jwk, key, -, -, rfl⟩ := signingKeyOf_eq_some.1 hkey
  refine ⟨header, kid, _, pre, obj, post, hheader, hkid, hrawKeys, rfl, hobj, fun other hother e => ?_,
    Compatible.wellTyped, fun h => h.compatible hfits⟩
  rcases List.mem_append.1 hother with hm | hm
  · exact hpre (List.mem_filterMap.2 ⟨other, hm, e⟩)
  · exact hpost (List.mem_filterMap.2 ⟨other, hm, e⟩)

/-- The key of the fixture says that it is for signatures, and for the algorithm. -/
theorem compatible_iff_fixture :
    ∃ header obj, Fixture.jose.decodeHeader Fixture.token = some header ∧
      kidOf (.object obj) = header.kid ∧ (Compatible obj header.alg ↔ WellTyped obj) := by
  obtain ⟨header, kid, _, _, obj, _, hheader, hkid, -, -, hobj, -, hiff⟩ :=
    compatible_iff Fixture.fromJwksJson_eq Fixture.verify_token
  exact ⟨header, obj, hheader, hobj.trans hkid.symm, hiff⟩

/-! ## A member of another type -/

namespace Fixture

/-- A key with a number where its use should be. -/
def untypedKey : List (String × Json.Value) :=
  [("kty", .string "RSA"), ("kid", .string "sig"), ("use", .number (.posInt 42)), ("n", .string "AQ"),
    ("e", .string "AQAB")]

def untypedJwksJson : String :=
  "\x7b\"keys\":[\x7b\"kty\":\"RSA\",\"kid\":\"sig\",\"use\":42,\"n\":\"AQ\",\"e\":\"AQAB\"\x7d]\x7d"

/-- The libraries, where the text of the key is parsed as well. -/
def untypedJose : Jose (String × String) (String × String) :=
  { Fixture.jose with
    parseJson := fun text =>
      if text = untypedJwksJson then .ok (.object [("keys", .array [.object untypedKey])])
      else Fixture.jose.parseJson text }

def untypedVerifier : JwtVerifier (String × String) where
  policy := policy
  keys := (∅ : HashMap _ _).insert "sig" ⟨("AQ", "AQAB"), ⟨none, none, [], "RSA", none⟩⟩

end Fixture

/-- A key with a `use` that is no text verifies a token. -/
theorem compatible_counterexample :
    ¬∀ (jwksJson : String) (self : JwtVerifier (String × String)) (now : Option UInt64) (token u : String)
      (header : Header) (kid : String) (rawKeys : List Json.Value) (obj : List (String × Json.Value)),
      JwtVerifier.fromJwksJson Fixture.untypedJose Fixture.policy jwksJson = .ok self →
      self.verify Fixture.untypedJose now token = .ok u →
      Fixture.untypedJose.decodeHeader token = some header → header.kid = some kid →
      jwksKeys Fixture.untypedJose jwksJson = some rawKeys → .object obj ∈ rawKeys →
      kidOf (.object obj) = some kid → Compatible obj header.alg := by
  intro h
  have hverify : Fixture.untypedVerifier.verify Fixture.untypedJose (some 1000) Fixture.token =
      .ok "administrator" := by decide +kernel
  have hcompatible := h Fixture.untypedJwksJson Fixture.untypedVerifier (some 1000) Fixture.token
    "administrator" { alg := .RS256, kid := some "sig" } "sig" _ Fixture.untypedKey rfl hverify rfl rfl rfl
    (List.mem_singleton_self _) rfl
  cases hcompatible.use _ rfl

end CrudeOAuth
