import CrudeOAuth.Core.Jwt.Verify

/-!
# Which keys a JWKS gives

A JWKS is loaded exactly if all of its elements are objects, no two of them have the same
`kid`, and some element is usable (`Usable`). The keys are then those of the usable
elements, whatever the order of the elements (`fromJwksJson_exact`).

An element that is not usable is skipped, but its `kid` is recorded before that. So such
an element leaves a JWKS as it was only if its `kid` is a new one (`skips_iff`): a key for
encryption makes the JWKS unusable if it shares its `kid` with a key for signatures.
-/

namespace CrudeOAuth

open Rust

variable {Jwk Key : Type} {jose : Jose Jwk Key} {obj : List (String × Json.Value)} {kid : String}
  {k : SigningKey Key} {xs ys pre post : List Json.Value} {policy : JwtPolicy} {jwksJson : String}
  {self : JwtVerifier Key}

/-- The policy has what loading a JWKS asks of it. -/
structure JwtPolicy.Complete (policy : JwtPolicy) : Prop where
  audiences : policy.trustedAudiences ≠ []
  issuer : policy.trustedIssuer ≠ ""
  algorithms : policy.allowedAlgorithms ≠ some []

/-! ## Usable elements -/

/-- The element is usable: it has the `kid`, its metadata lets it verify signatures, and the
    key `k` is made of it. -/
structure Usable (jose : Jose Jwk Key) (obj : List (String × Json.Value)) (kid : String)
    (k : SigningKey Key) : Prop where
  kid : obj.lookup "kid" = some (.string kid)
  use : ∀ value, obj.lookup "use" = some (.string value) → value = "sig"
  keyOps : ∀ ops s, obj.lookup "key_ops" = some (.array ops) → Json.Value.string s ∈ ops →
    Json.Value.string "verify" ∈ ops
  alg : ∀ value, obj.lookup "alg" = some (.string value) → ∃ a, value = algorithmName a
  key : ∃ jwk, jose.parseJwk (stripMeta obj) = some jwk ∧ jose.fromJwk jwk = some k.key
  jwkMeta : k.jwkMeta = JwkMeta.ofObject obj

theorem useAllows_ofObject : (JwkMeta.ofObject obj).useAllows = true ↔
    ∀ value, obj.lookup "use" = some (.string value) → value = "sig" := by
  simp only [JwkMeta.useAllows_iff, JwkMeta.ofObject, Json.Value.bind_asStr_eq_some]

theorem mem_keyOps_ofObject {s : String} : s ∈ (JwkMeta.ofObject obj).keyOps ↔
    ∃ ops, obj.lookup "key_ops" = some (.array ops) ∧ Json.Value.string s ∈ ops := by
  simp only [JwkMeta.ofObject]
  cases obj.lookup "key_ops" with
  | none => simp
  | some v => cases v <;> simp [Json.Value.asArray, Json.Value.asStr_eq_some]

theorem keyOpsAllow_ofObject : (JwkMeta.ofObject obj).keyOpsAllow = true ↔
    ∀ ops s, obj.lookup "key_ops" = some (.array ops) → Json.Value.string s ∈ ops →
      Json.Value.string "verify" ∈ ops := by
  rw [JwkMeta.keyOpsAllow_iff, mem_keyOps_ofObject, List.eq_nil_iff_forall_not_mem]
  constructor
  · rintro (hnil | ⟨ops', hops', hverify⟩) ops s hops hs
    · exact absurd (mem_keyOps_ofObject.2 ⟨ops, hops, hs⟩) (hnil s)
    · obtain rfl := Json.Value.array.inj (Option.some.inj (hops'.symm.trans hops))
      exact hverify
  · intro h
    refine or_iff_not_imp_left.2 fun hsome => ?_
    push Not at hsome
    obtain ⟨s, hs⟩ := hsome
    obtain ⟨ops, hops, hs⟩ := mem_keyOps_ofObject.1 hs
    exact ⟨ops, hops, h ops s hops hs⟩

theorem algSupported_ofObject : (JwkMeta.ofObject obj).algSupported = true ↔
    ∀ value, obj.lookup "alg" = some (.string value) → ∃ a, value = algorithmName a := by
  simp only [JwkMeta.algSupported, JwkMeta.ofObject, Option.all_eq_true, Option.isSome_iff_exists,
    parseAlgorithmName_eq_some, Json.Value.bind_asStr_eq_some]

/-- The usable elements are those that the loop makes a key of. -/
theorem usable_iff : Usable jose obj kid k ↔
    kidOf (.object obj) = some kid ∧ signingKeyOf jose obj = some k := by
  have hkid : kidOf (.object obj) = some kid ↔ obj.lookup "kid" = some (.string kid) :=
    Json.Value.bind_asStr_eq_some
  rw [hkid, signingKeyOf_eq_some, useAllows_ofObject, keyOpsAllow_ofObject, algSupported_ofObject]
  constructor
  · rintro ⟨hkid, huse, hkeyOps, halg, ⟨jwk, hjwk, hkey⟩, hmeta⟩
    exact ⟨hkid, ⟨huse, hkeyOps, halg⟩, jwk, k.key, hjwk, hkey, by rw [← hmeta]⟩
  · rintro ⟨hkid, ⟨huse, hkeyOps, halg⟩, jwk, key, hjwk, hkey, rfl⟩
    exact ⟨hkid, huse, hkeyOps, halg, ⟨jwk, hjwk, hkey⟩, rfl⟩

/-! ## The map -/

/-- The keys are those of the usable elements. -/
theorem lookup_loadKeys_eq_some (hnodup : (xs.filterMap kidOf).Nodup) :
    (loadKeys jose xs).lookup kid = some k ↔ ∃ obj, .object obj ∈ xs ∧ Usable jose obj kid k := by
  constructor
  · intro h
    obtain ⟨pre, obj, post, rfl, hkid, -, -, hkey⟩ := exists_of_lookup_loadKeys hnodup h
    exact ⟨obj, List.mem_append_right _ List.mem_cons_self, usable_iff.2 ⟨hkid, hkey⟩⟩
  · rintro ⟨obj, hobj, husable⟩
    obtain ⟨hkid, hkey⟩ := usable_iff.1 husable
    obtain ⟨pre, post, rfl⟩ := List.append_of_mem hobj
    -- No other element has the `kid`, so nothing replaces the key.
    rw [List.filterMap_append, List.filterMap_cons_some hkid, List.nodup_append] at hnodup
    obtain ⟨-, hpost, hdisj⟩ := hnodup
    rw [lookup_loadKeys hkid (fun hm => hdisj kid hm kid List.mem_cons_self rfl) (List.nodup_cons.1 hpost).1]
    exact hkey

/-- Where the same elements are usable, the keys are the same. -/
theorem loadKeys_congr (hxs : (xs.filterMap kidOf).Nodup) (hys : (ys.filterMap kidOf).Nodup)
    (h : ∀ obj kid k, Usable jose obj kid k → (.object obj ∈ xs ↔ .object obj ∈ ys)) :
    loadKeys jose xs = loadKeys jose ys := by
  refine Finmap.ext_lookup fun kid => Option.ext fun k => ?_
  rw [lookup_loadKeys_eq_some hxs, lookup_loadKeys_eq_some hys]
  exact exists_congr fun obj => and_congr_left (h obj kid k)

theorem keys_loadKeys_ne_empty (hnodup : (xs.filterMap kidOf).Nodup) :
    (loadKeys jose xs).keys ≠ ∅ ↔ ∃ obj kid k, .object obj ∈ xs ∧ Usable jose obj kid k := by
  rw [← Finset.nonempty_iff_ne_empty]
  constructor
  · rintro ⟨kid, hkid⟩
    obtain ⟨k, hk⟩ := Finmap.mem_iff.1 (Finmap.mem_keys.1 hkid)
    obtain ⟨obj, hobj, husable⟩ := (lookup_loadKeys_eq_some hnodup).1 hk
    exact ⟨obj, kid, k, hobj, husable⟩
  · rintro ⟨obj, kid, k, hobj, husable⟩
    have hk := (lookup_loadKeys_eq_some hnodup).2 ⟨obj, hobj, husable⟩
    exact ⟨kid, Finmap.mem_keys.2 (Finmap.mem_iff.2 ⟨k, hk⟩)⟩

/-- The order of the elements does not matter. -/
theorem loadKeys_perm (hperm : xs.Perm ys) (hnodup : (xs.filterMap kidOf).Nodup) :
    loadKeys jose xs = loadKeys jose ys :=
  loadKeys_congr hnodup ((hperm.filterMap _).nodup_iff.1 hnodup) fun _ _ _ _ => hperm.mem_iff

/-! ## Loading -/

/-- What loading takes for a policy that is complete, and what it gives. -/
theorem fromJwksJson_eq_ok_usable (hpolicy : policy.Complete) {rawKeys : List Json.Value}
    (hkeys : jwksKeys jose jwksJson = some rawKeys) (hne : rawKeys ≠ []) :
    JwtVerifier.fromJwksJson jose policy jwksJson = .ok self ↔
      (∀ x ∈ rawKeys, ∃ obj, x = .object obj) ∧ (rawKeys.filterMap kidOf).Nodup ∧
        (∃ obj kid k, .object obj ∈ rawKeys ∧ Usable jose obj kid k) ∧
        self = { policy, keys := loadKeys jose rawKeys } := by
  rw [fromJwksJson_eq_ok]
  constructor
  · rintro ⟨-, rawKeys', hkeys', -, hobj, hnodup, husable, rfl⟩
    obtain rfl := Option.some.inj (hkeys'.symm.trans hkeys)
    exact ⟨hobj, hnodup, (keys_loadKeys_ne_empty hnodup).1 husable, rfl⟩
  · rintro ⟨hobj, hnodup, husable, rfl⟩
    exact ⟨⟨hpolicy.audiences, hpolicy.issuer, hpolicy.algorithms⟩, rawKeys, hkeys, hne, hobj, hnodup,
      (keys_loadKeys_ne_empty hnodup).2 husable, rfl⟩

/-- Of the checks on the metadata of a loaded key, two were made when it was loaded. -/
theorem checkJwkMetadata_of_usable (h : Usable jose obj kid k) (alg : Algorithm) :
    JwtVerifier.checkJwkMetadata k.jwkMeta alg = (do
      check (k.jwkMeta.alg.all fun expected => parseAlgorithmName expected == some alg) .invalidSignature
      check (algorithmMatchesKeyType alg k.jwkMeta.kty k.jwkMeta.crv) .invalidSignature) := by
  have huse : k.jwkMeta.useAllows = true := by rw [h.jwkMeta, useAllows_ofObject]; exact h.use
  have hkeyOps : k.jwkMeta.keyOpsAllow = true := by rw [h.jwkMeta, keyOpsAllow_ofObject]; exact h.keyOps
  rw [JwtVerifier.checkJwkMetadata, huse, hkeyOps]
  rfl

/-- Loading is exact, and the order of the elements does not matter: a JWKS is loaded exactly
    if its elements are objects with distinct `kid`s, one of them usable, and its keys are
    those of the usable elements. -/
theorem fromJwksJson_exact (hpolicy : policy.Complete) {rawKeys : List Json.Value}
    (hkeys : jwksKeys jose jwksJson = some rawKeys) (hne : rawKeys ≠ []) :
    ((∃ self, JwtVerifier.fromJwksJson jose policy jwksJson = .ok self) ↔
      (∀ x ∈ rawKeys, ∃ obj, x = .object obj) ∧ (rawKeys.filterMap kidOf).Nodup ∧
        ∃ obj kid k, .object obj ∈ rawKeys ∧ Usable jose obj kid k) ∧
    (∀ self, JwtVerifier.fromJwksJson jose policy jwksJson = .ok self → ∀ kid k,
      (self.keys.lookup kid = some k ↔ ∃ obj, .object obj ∈ rawKeys ∧ Usable jose obj kid k) ∧
      (self.keys.lookup kid = some k → ∀ alg, JwtVerifier.checkJwkMetadata k.jwkMeta alg = (do
        check (k.jwkMeta.alg.all fun expected => parseAlgorithmName expected == some alg) .invalidSignature
        check (algorithmMatchesKeyType alg k.jwkMeta.kty k.jwkMeta.crv) .invalidSignature))) ∧
    ∀ jwksJson' rawKeys', jwksKeys jose jwksJson' = some rawKeys' → rawKeys.Perm rawKeys' → ∀ self,
      JwtVerifier.fromJwksJson jose policy jwksJson = .ok self ↔
        JwtVerifier.fromJwksJson jose policy jwksJson' = .ok self := by
  refine ⟨?_, fun self hself kid k => ?_, fun jwksJson' rawKeys' hkeys' hperm self => ?_⟩
  · constructor
    · rintro ⟨self, hself⟩
      obtain ⟨hobj, hnodup, husable, -⟩ := (fromJwksJson_eq_ok_usable hpolicy hkeys hne).1 hself
      exact ⟨hobj, hnodup, husable⟩
    · rintro ⟨hobj, hnodup, husable⟩
      exact ⟨_, (fromJwksJson_eq_ok_usable hpolicy hkeys hne).2 ⟨hobj, hnodup, husable, rfl⟩⟩
  · obtain ⟨-, hnodup, -, rfl⟩ := (fromJwksJson_eq_ok_usable hpolicy hkeys hne).1 hself
    refine ⟨lookup_loadKeys_eq_some hnodup, fun hk alg => ?_⟩
    obtain ⟨obj, -, husable⟩ := (lookup_loadKeys_eq_some hnodup).1 hk
    exact checkJwkMetadata_of_usable husable alg
  · have hne' : rawKeys' ≠ [] := fun hnil => hne (hnil ▸ hperm).eq_nil
    rw [fromJwksJson_eq_ok_usable hpolicy hkeys hne, fromJwksJson_eq_ok_usable hpolicy hkeys' hne']
    -- The conditions are about the elements as a set, but for the `kid`s, which stay distinct.
    simp only [hperm.mem_iff, (hperm.filterMap kidOf).nodup_iff]
    refine and_congr_right fun _ => and_congr_right fun hnodup => and_congr_right fun _ => ?_
    rw [loadKeys_perm hperm ((hperm.filterMap _).nodup_iff.2 hnodup)]

/-! ## Elements that are skipped -/

/-- The element cannot serve the verification of signatures. -/
inductive Unusable (jose : Jose Jwk Key) (obj : List (String × Json.Value)) : Prop
  | use (value : String) (h : obj.lookup "use" = some (.string value)) (hne : value ≠ "sig")
  | keyOps (ops : List Json.Value) (s : String) (h : obj.lookup "key_ops" = some (.array ops))
    (hs : Json.Value.string s ∈ ops) (hno : Json.Value.string "verify" ∉ ops)
  | alg (value : String) (h : obj.lookup "alg" = some (.string value))
    (hno : parseAlgorithmName value = none)
  | key (h : ∀ jwk, jose.parseJwk (stripMeta obj) = some jwk → jose.fromJwk jwk = none)

theorem Unusable.not_usable (h : Unusable jose obj) : ¬Usable jose obj kid k := by
  intro husable
  cases h with
  | use value h hne => exact hne (husable.use value h)
  | keyOps ops s h hs hno => exact hno (husable.keyOps ops s h hs)
  | alg value h hno =>
    obtain ⟨a, ha⟩ := husable.alg value h
    rw [parseAlgorithmName_eq_some.2 ha] at hno
    cases hno
  | key h =>
    obtain ⟨jwk, hjwk, hkey⟩ := husable.key
    rw [h jwk hjwk] at hkey
    cases hkey

/-- An element in front has a `kid` of its own, or none. -/
theorem nodup_kids_cons {x : Json.Value} (hnodup : (xs.filterMap kidOf).Nodup) :
    ((x :: xs).filterMap kidOf).Nodup ↔ ∀ kid, kidOf x = some kid → ∀ y ∈ xs, kidOf y ≠ some kid := by
  cases hk : kidOf x with
  | none => simpa [List.filterMap_cons_none hk] using hnodup
  | some kid => simp [List.filterMap_cons_some hk, hnodup]

/-- The JWKS is loaded with the keys of the verifier, and gives the same answers. -/
def LoadsAs (jose : Jose Jwk Key) (policy : JwtPolicy) (jwksJson : String) (self : JwtVerifier Key) : Prop :=
  ∃ self', JwtVerifier.fromJwksJson jose policy jwksJson = .ok self' ∧ self'.keys = self.keys ∧
    ∀ now token, self'.verify jose now token = self.verify jose now token

/-- An element that is not usable does not matter to a JWKS that is loaded without it exactly
    if its `kid` is not that of another element. -/
theorem skips_iff {jwksJson' : String} (hload : JwtVerifier.fromJwksJson jose policy jwksJson = .ok self)
    (hkeys : jwksKeys jose jwksJson = some (pre ++ post)) (hunusable : Unusable jose obj)
    (hkeys' : jwksKeys jose jwksJson' = some (pre ++ .object obj :: post)) :
    LoadsAs jose policy jwksJson' self ↔
      ∀ kid, obj.lookup "kid" = some (.string kid) → ∀ x ∈ pre ++ post, kidOf x ≠ some kid := by
  obtain ⟨hpolicy, rawKeys, hraw, -, hobj, hnodup, hne, rfl⟩ := fromJwksJson_eq_ok.1 hload
  obtain rfl := Option.some.inj (hraw.symm.trans hkeys)
  have hmiddle : (pre ++ .object obj :: post).Perm (.object obj :: (pre ++ post)) := List.perm_middle
  have hdistinct_iff : ((pre ++ .object obj :: post).filterMap kidOf).Nodup ↔
      ∀ kid, obj.lookup "kid" = some (.string kid) → ∀ x ∈ pre ++ post, kidOf x ≠ some kid := by
    rw [(hmiddle.filterMap kidOf).nodup_iff, nodup_kids_cons hnodup]
    exact forall_congr' fun kid => imp_congr_left Json.Value.bind_asStr_eq_some
  rw [← hdistinct_iff]
  constructor
  · rintro ⟨self', hself', -⟩
    obtain ⟨-, rawKeys, hraw', -, -, hdistinct, -⟩ := fromJwksJson_eq_ok.1 hself'
    exact Option.some.inj (hraw'.symm.trans hkeys') ▸ hdistinct
  · intro hdistinct
    -- No key is made of the element, so the keys are those of the others.
    have hsame : loadKeys jose (pre ++ .object obj :: post) = loadKeys jose (pre ++ post) := by
      refine loadKeys_congr hdistinct hnodup fun obj' kid k husable => ?_
      rw [hmiddle.mem_iff, List.mem_cons, or_iff_right]
      rintro ⟨⟩
      exact hunusable.not_usable husable
    refine ⟨_, fromJwksJson_eq_ok.2 ⟨hpolicy, _, hkeys', by simp, fun x hx => ?_, hdistinct,
      hsame ▸ hne, rfl⟩, hsame, fun now token => by rw [hsame]⟩
    rcases List.mem_cons.1 (hmiddle.mem_iff.1 hx) with rfl | hx
    · exact ⟨obj, rfl⟩
    · exact hobj x hx

/-! ## One certificate for two purposes -/

namespace Fixture

/-- A key for encryption, with a `kid`. -/
def encryptionKey (kid : String) : List (String × Json.Value) :=
  [("kty", .string "RSA"), ("kid", .string kid), ("use", .string "enc"), ("alg", .string "RSA-OAEP"),
    ("n", .string "AQ"), ("e", .string "AQAB")]

def encryptionJwk (kid : String) : String :=
  "\x7b\"kty\":\"RSA\",\"kid\":\"" ++ kid ++
    "\",\"use\":\"enc\",\"alg\":\"RSA-OAEP\",\"n\":\"AQ\",\"e\":\"AQAB\"\x7d"

/-- The JWKS with a key for encryption in front. -/
def jwksJsonWith (kid : String) : String :=
  "\x7b\"keys\":[" ++ encryptionJwk kid ++
    ",\x7b\"kty\":\"RSA\",\"kid\":\"sig\",\"use\":\"sig\",\"alg\":\"RS256\",\"n\":\"AQ\",\"e\":\"AQAB\"\x7d]\x7d"

/-- The one key of the JWKS. -/
def signingJwk : Json.Value :=
  .object [("kty", .string "RSA"), ("kid", .string "sig"), ("use", .string "sig"),
    ("alg", .string "RS256"), ("n", .string "AQ"), ("e", .string "AQAB")]

/-- The libraries, where texts of two keys are parsed as well. -/
def joseWith (kid : String) : Jose (String × String) (String × String) :=
  { Fixture.jose with
    parseJson := fun text =>
      if text = jwksJsonWith kid then .ok (.object [("keys", .array [.object (encryptionKey kid), signingJwk])])
      else Fixture.jose.parseJson text }

theorem jwksKeys_jwksJsonWith (kid : String) : jwksKeys (joseWith kid) (jwksJsonWith kid) =
    some [.object (encryptionKey kid), signingJwk] := by
  simp only [jwksKeys, joseWith, if_true]
  rfl

theorem unusable_encryptionKey (kid : String) : Unusable (joseWith kid) (encryptionKey kid) :=
  .use "enc" rfl (by decide)

theorem complete_policy : Fixture.policy.Complete := ⟨by decide, by decide, by decide⟩

/-- The JWKS with a key for encryption behind. -/
def swappedJwksJson : String :=
  "\x7b\"keys\":[\x7b\"kty\":\"RSA\",\"kid\":\"sig\",\"use\":\"sig\",\"alg\":\"RS256\",\"n\":\"AQ\",\"e\":\"AQAB\"\x7d," ++
    encryptionJwk "enc" ++ "]\x7d"

/-- The libraries, where this text is parsed as well. -/
def swappedJose : Jose (String × String) (String × String) :=
  { joseWith "enc" with
    parseJson := fun text =>
      if text = swappedJwksJson then .ok (.object [("keys", .array [signingJwk, .object (encryptionKey "enc")])])
      else (joseWith "enc").parseJson text }

theorem parseJson_jwksJsonWith : swappedJose.parseJson (jwksJsonWith "enc") =
    .ok (.object [("keys", .array [.object (encryptionKey "enc"), signingJwk])]) := by
  have hne : jwksJsonWith "enc" ≠ swappedJwksJson := by decide +kernel
  simp only [swappedJose, if_neg hne, joseWith, if_true]

theorem jwksKeys_swapped : jwksKeys swappedJose swappedJwksJson =
    some [signingJwk, .object (encryptionKey "enc")] := by
  simp only [jwksKeys, swappedJose, if_true]
  rfl

end Fixture

/-- Of two keys, in any order, the one for signatures is loaded. -/
theorem fromJwksJson_exact_fixture :
    (∃ k, Fixture.verifier.keys.lookup "sig" = some k ∧
      ∃ obj, .object obj ∈ [.object (Fixture.encryptionKey "enc"), Fixture.signingJwk] ∧
        Usable Fixture.swappedJose obj "sig" k) ∧
      JwtVerifier.fromJwksJson Fixture.swappedJose Fixture.policy Fixture.swappedJwksJson = .ok Fixture.verifier := by
  have hkeys : jwksKeys Fixture.swappedJose (Fixture.jwksJsonWith "enc") =
      some [.object (Fixture.encryptionKey "enc"), Fixture.signingJwk] := by
    rw [jwksKeys, Fixture.parseJson_jwksJsonWith]
    rfl
  have hload : JwtVerifier.fromJwksJson Fixture.swappedJose Fixture.policy (Fixture.jwksJsonWith "enc") =
      .ok Fixture.verifier := by
    rw [JwtVerifier.fromJwksJson, Fixture.parseJson_jwksJsonWith]
    rfl
  obtain ⟨-, hexact, hperm⟩ := fromJwksJson_exact Fixture.complete_policy hkeys (by simp)
  exact ⟨⟨_, rfl, ((hexact _ hload "sig" _).1).1 rfl⟩,
    (hperm _ _ Fixture.jwksKeys_swapped (List.Perm.swap _ _ _) _).1 hload⟩

/-- A key for encryption with a `kid` of its own is skipped. -/
theorem skips_iff_fixture :
    LoadsAs (Fixture.joseWith "enc") Fixture.policy (Fixture.jwksJsonWith "enc") Fixture.verifier := by
  have hload : JwtVerifier.fromJwksJson (Fixture.joseWith "enc") Fixture.policy Fixture.jwksJson =
      .ok Fixture.verifier := rfl
  have hkeys : jwksKeys (Fixture.joseWith "enc") Fixture.jwksJson = some ([] ++ [Fixture.signingJwk]) := rfl
  refine (skips_iff hload hkeys (Fixture.unusable_encryptionKey "enc")
    (Fixture.jwksKeys_jwksJsonWith "enc")).2 fun kid hkid x hx => ?_
  obtain rfl : kid = "enc" := (Json.Value.string.inj (Option.some.inj hkid)).symm
  rw [List.nil_append, List.mem_singleton] at hx
  rw [hx]
  decide

/-- A key for encryption makes the JWKS unusable if it has the `kid` of the key for signatures. -/
theorem skips_counterexample :
    ¬∀ (jwksJson jwksJson' : String) (self : JwtVerifier (String × String)) (pre post : List Json.Value)
      (obj : List (String × Json.Value)),
      JwtVerifier.fromJwksJson (Fixture.joseWith "sig") Fixture.policy jwksJson = .ok self →
      jwksKeys (Fixture.joseWith "sig") jwksJson = some (pre ++ post) →
      Unusable (Fixture.joseWith "sig") obj →
      jwksKeys (Fixture.joseWith "sig") jwksJson' = some (pre ++ .object obj :: post) →
      LoadsAs (Fixture.joseWith "sig") Fixture.policy jwksJson' self := by
  intro h
  have hkeys' := Fixture.jwksKeys_jwksJsonWith "sig"
  obtain ⟨self', hself', -⟩ := h Fixture.jwksJson (Fixture.jwksJsonWith "sig") Fixture.verifier [] _ _
    rfl rfl (Fixture.unusable_encryptionKey "sig") hkeys'
  obtain ⟨-, rawKeys, hraw, -, -, hdistinct, -⟩ := fromJwksJson_eq_ok.1 hself'
  obtain rfl := Option.some.inj (hraw.symm.trans hkeys')
  exact absurd hdistinct (by decide)

end CrudeOAuth
