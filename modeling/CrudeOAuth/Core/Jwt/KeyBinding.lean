import CrudeOAuth.Core.Jwt.Verify

/-!
# Which key a token is verified with

A token that is accepted was verified with the key made of the one JWKS element that has
the `kid` of its header. Of the header only the algorithm and the `kid` matter, and the
element is meant for the algorithm in its type and in what its metadata says (`MeantFor`).

The curve of an elliptic-curve key is read so that one that is no text is a missing one,
which goes with every algorithm: the element suits the algorithm exactly if its curve is a
text (`verify_keyBinding`).

Where the signature is checked is `jsonwebtoken`; that it is checked, with the key and
the algorithms given to `decode`, is an assumption (`ChecksSignatures`). So is that these
are the one algorithm that a validation is made for (`ValidatesAlgorithm`), and that an
elliptic-curve key is parsed only if it has a curve (`RequiresCurve`).
-/

namespace CrudeOAuth

open Rust

variable {Jwk Key : Type}

/-- `decode` returns claims only if the signature of the token is right, under the given key
    and one of the given algorithms. -/
def Jose.ChecksSignatures (jose : Jose Jwk Key) (SignedWith : String → Key → Algorithm → Prop) : Prop :=
  ∀ token key validation claims, jose.decode token key validation = .ok claims →
    ∃ alg ∈ validation.algorithms, SignedWith token key alg

/-- A new validation allows the one algorithm that it is made for. -/
def Jose.ValidatesAlgorithm (jose : Jose Jwk Key) : Prop :=
  ∀ alg, (jose.newValidation alg).algorithms = [alg]

/-- The JWK is of a type that has curves. -/
def HasCurves (obj : List (String × Json.Value)) : Prop :=
  obj.lookup "kty" = some (.string "EC") ∨ obj.lookup "kty" = some (.string "OKP")

/-- A JWK of type `EC` or `OKP` is parsed only if it has a curve. -/
def Jose.RequiresCurve (jose : Jose Jwk Key) : Prop :=
  ∀ obj jwk, jose.parseJwk (.object obj) = some jwk → HasCurves obj → obj.lookup "crv" ≠ none

/-- The JWK is meant for verifying signatures of an algorithm, as far as its type and its
    metadata say. -/
structure MeantFor (obj : List (String × Json.Value)) (a : Algorithm) : Prop where
  kty : obj.lookup "kty" = some (.string a.keyType)
  alg : ∀ value, obj.lookup "alg" = some (.string value) → value = algorithmName a
  use : ∀ value, obj.lookup "use" = some (.string value) → value = "sig"
  keyOps : ∀ ops s, obj.lookup "key_ops" = some (.array ops) → Json.Value.string s ∈ ops →
    Json.Value.string "verify" ∈ ops

/-- The JWK is meant for verifying signatures of an algorithm, on the curve of the algorithm. -/
structure SuitsAlgorithm (obj : List (String × Json.Value)) (a : Algorithm) : Prop extends MeantFor obj a where
  crv : ∀ curve, a.curve = some curve → obj.lookup "crv" = some (.string curve)

/-- The curve of the JWK, if it is of a type that has curves, is missing or a text. -/
def PlainCurve (obj : List (String × Json.Value)) : Prop :=
  HasCurves obj → ∀ v, obj.lookup "crv" = some v → ∃ s, v = .string s

/-- Only shared secrets verify HMAC signatures, and they verify nothing else. -/
theorem MeantFor.oct_iff {obj : List (String × Json.Value)} {a : Algorithm}
    (h : MeantFor obj a) : obj.lookup "kty" = some (.string "oct") ↔ a.isHmac = true := by
  rw [h.kty, ← Algorithm.keyType_eq_oct, Option.some.injEq, Json.Value.string.injEq]

/-- The keys that have curves are those of the algorithms on curves. -/
theorem MeantFor.hasCurves_iff {obj : List (String × Json.Value)} {a : Algorithm}
    (h : MeantFor obj a) : HasCurves obj ↔ ∃ curve, a.curve = some curve := by
  rw [HasCurves, h.kty]
  cases a <;> simp [Algorithm.keyType, Algorithm.curve]

/-! ## Metadata and members -/

variable {obj : List (String × Json.Value)}

/-- Stripping the metadata leaves the other members. -/
theorem lookup_stripMeta {key : String} (h : key ∉ strippedMembers) :
    (obj.filter (·.1 ∉ strippedMembers)).lookup key = obj.lookup key := by
  induction obj with
  | nil => rfl
  | cons m obj ih =>
    obtain ⟨k, v⟩ := m
    by_cases hk : k ∈ strippedMembers
    · have hne : (key == k) = false := by
        rw [beq_eq_false_iff_ne]
        rintro rfl
        exact h hk
      rw [List.filter_cons_of_neg (by simpa using hk), ih, List.lookup_cons, hne]
    · rw [List.filter_cons_of_pos (by simpa using hk), List.lookup_cons, List.lookup_cons, ih]

/-- A key whose metadata fits an algorithm was made of an element that is meant for it. -/
theorem meantFor_of_fits {a : Algorithm} (h : (JwkMeta.ofObject obj).Fits a) : MeantFor obj a := by
  refine ⟨?_, fun value hvalue => h.alg value (Json.Value.bind_asStr_eq_some.2 hvalue),
    fun value hvalue => h.use value (Json.Value.bind_asStr_eq_some.2 hvalue), fun ops s hops hs => ?_⟩
  · -- A `kty` that is missing is recorded as the empty text, which is that of no algorithm.
    have hk : ((obj.lookup "kty").bind Json.Value.asStr).getD "" = a.keyType := h.kty
    rw [← Json.Value.bind_asStr_eq_some]
    cases ho : (obj.lookup "kty").bind Json.Value.asStr with
    | none =>
      rw [ho] at hk
      exact absurd hk (by cases a <;> decide)
    | some s => rw [← hk, ho]; rfl
  · have hops' : (JwkMeta.ofObject obj).keyOps = ops.filterMap Json.Value.asStr := by
      simp [JwkMeta.ofObject, hops, Json.Value.asArray]
    have hmem := h.keyOps
    rw [hops', Json.Value.mem_filterMap_asStr] at hmem
    refine hmem.resolve_left fun hnil => ?_
    rw [← Json.Value.mem_filterMap_asStr, hnil] at hs
    cases hs

/-- It suits the algorithm if its curve is a text, and only then. -/
theorem suitsAlgorithm_iff_of_fits {jose : Jose Jwk Key} (hcrv : jose.RequiresCurve) {jwk : Jwk}
    (hjwk : jose.parseJwk (stripMeta obj) = some jwk) {a : Algorithm}
    (h : (JwkMeta.ofObject obj).Fits a) : SuitsAlgorithm obj a ↔ PlainCurve obj := by
  have hmeant := meantFor_of_fits h
  constructor
  · intro hsuits hcurves v hv
    obtain ⟨curve, hcurve⟩ := hmeant.hasCurves_iff.1 hcurves
    rw [hsuits.crv curve hcurve] at hv
    exact ⟨curve, (Option.some.inj hv).symm⟩
  · refine fun hplain => ⟨hmeant, fun curve hcurve => ?_⟩
    have hcurves := hmeant.hasCurves_iff.2 ⟨curve, hcurve⟩
    -- Such a key is parsed only if there is a curve, and a curve that is a text was compared.
    have hsome : obj.lookup "crv" ≠ none := by
      have hstripped := hcrv _ _ hjwk
      rw [HasCurves, lookup_stripMeta (by decide), lookup_stripMeta (by decide)] at hstripped
      exact hstripped hcurves
    obtain ⟨v, hv⟩ := Option.ne_none_iff_exists'.1 hsome
    obtain ⟨s, rfl⟩ := hplain hcurves v hv
    have hm : (JwkMeta.ofObject obj).crv = some s := Json.Value.bind_asStr_eq_some.2 hv
    rcases h.crv curve hcurve with hnone | hsame
    · cases hm.symm.trans hnone
    · rw [hv, Option.some.inj (hm.symm.trans hsame)]

/-! ## The key of a token -/

variable {jose : Jose Jwk Key} {SignedWith : String → Key → Algorithm → Prop} {self : JwtVerifier Key}

open JwtVerifier

/-- A token that carries claims was verified with the key of a usable element with its `kid`. -/
theorem JwtVerifier.Carries.exists_signingKey {policy : JwtPolicy} {jwksJson : String}
    (hload : fromJwksJson jose policy jwksJson = .ok self) {token : String} {claims : Json.Value}
    (h : Carries jose self token claims) :
    ∃ header rawKeys obj k, jose.decodeHeader token = some header ∧ jwksKeys jose jwksJson = some rawKeys ∧
      .object obj ∈ rawKeys ∧ kidOf (.object obj) = header.kid ∧ signingKeyOf jose obj = some k ∧
      jose.decode token k.key (validation jose header.alg) = .ok claims := by
  obtain ⟨-, rawKeys, hrawKeys, -, -, hnodup, -, rfl⟩ := fromJwksJson_eq_ok.1 hload
  obtain ⟨-, -, header, hheader, -, -, kid, k, hkid, hk, -, hdecode⟩ := h
  obtain ⟨pre, obj, post, rfl, hobj, -, -, hkey⟩ := exists_of_lookup_loadKeys hnodup hk
  exact ⟨header, _, obj, k, hheader, hrawKeys, List.mem_append_right _ List.mem_cons_self, hobj.trans hkid.symm,
    hkey, hdecode⟩

/-- A token that carries claims was verified with the key of the one element with its `kid`. -/
theorem JwtVerifier.Carries.keyBinding (hsig : jose.ChecksSignatures SignedWith) (hnew : jose.ValidatesAlgorithm)
    (hcrv : jose.RequiresCurve) {policy : JwtPolicy} {jwksJson : String}
    (hload : fromJwksJson jose policy jwksJson = .ok self) {token : String} {claims : Json.Value}
    (h : Carries jose self token claims) :
    ∃ header kid rawKeys pre obj post jwk key, jose.decodeHeader token = some header ∧
      header.kid = some kid ∧ jwksKeys jose jwksJson = some rawKeys ∧
      rawKeys = pre ++ .object obj :: post ∧ kidOf (.object obj) = some kid ∧
      (∀ other ∈ pre ++ post, kidOf other ≠ some kid) ∧
      jose.parseJwk (stripMeta obj) = some jwk ∧ jose.fromJwk jwk = some key ∧
      SignedWith token key header.alg ∧ MeantFor obj header.alg ∧
      (SuitsAlgorithm obj header.alg ↔ PlainCurve obj) := by
  obtain ⟨-, rawKeys, hrawKeys, -, -, hnodup, -, rfl⟩ := fromJwksJson_eq_ok.1 hload
  obtain ⟨-, -, header, hheader, -, -, kid, k, hkid, hk, hfits, hdecode⟩ := h
  obtain ⟨pre, obj, post, rfl, hobj, hpre, hpost, hkey⟩ := exists_of_lookup_loadKeys hnodup hk
  obtain ⟨-, jwk, key, hjwk, hfrom, rfl⟩ := signingKeyOf_eq_some.1 hkey
  obtain ⟨alg, halg, hsigned⟩ := hsig _ _ _ _ hdecode
  rw [validation, hnew, List.mem_singleton] at halg
  subst halg
  refine ⟨header, kid, _, pre, obj, post, jwk, key, hheader, hkid, hrawKeys, rfl, hobj, ?_, hjwk, hfrom,
    hsigned, meantFor_of_fits hfits, suitsAlgorithm_iff_of_fits hcrv hjwk hfits⟩
  intro other hother e
  rcases List.mem_append.1 hother with hm | hm
  · exact hpre (List.mem_filterMap.2 ⟨other, hm, e⟩)
  · exact hpost (List.mem_filterMap.2 ⟨other, hm, e⟩)

/-- The libraries differ at most in the header fields other than the algorithm and the `kid`. -/
def Jose.SameSelection (jose jose' : Jose Jwk Key) : Prop :=
  jose'.decode = jose.decode ∧ jose'.newValidation = jose.newValidation ∧
    ∀ token, (jose'.decodeHeader token).map (fun h => (h.alg, h.kid)) =
      (jose.decodeHeader token).map fun h => (h.alg, h.kid)

theorem verify_of_sameSelection {jose' : Jose Jwk Key} (h : jose.SameSelection jose')
    (now : Option UInt64) (token : String) : self.verify jose' now token = self.verify jose now token := by
  obtain ⟨hdecode, hnew, hheader⟩ := h
  have ht := hheader token
  simp only [verify, hdecode, validation, hnew]
  cases h1 : jose'.decodeHeader token <;> cases h2 : jose.decodeHeader token <;> rw [h1, h2] at ht
  · cases ht
  · cases ht
  · obtain ⟨halg, hkid⟩ := Prod.mk.inj (Option.some.inj ht)
    simp only [okOrElse, except_ok_bind, halg, hkid]

/-- A token is accepted only if exactly one element of the JWKS has the `kid` of its header,
    and then its signature was checked with the key made of that element, which is meant for
    the algorithm of the header; a shared secret is used for HMAC algorithms and for no others.
    Nothing else in the header influences the result. The element has the curve of the
    algorithm, too, exactly if what it has for a curve is a text. -/
theorem verify_keyBinding (hsig : jose.ChecksSignatures SignedWith) (hnew : jose.ValidatesAlgorithm)
    (hcrv : jose.RequiresCurve) {policy : JwtPolicy} {jwksJson : String}
    (hload : fromJwksJson jose policy jwksJson = .ok self)
    {now : Option UInt64} {token u : String} (hverify : self.verify jose now token = .ok u) :
    (∃ header kid rawKeys pre obj post jwk key, jose.decodeHeader token = some header ∧
      header.kid = some kid ∧ jwksKeys jose jwksJson = some rawKeys ∧
      rawKeys = pre ++ .object obj :: post ∧ kidOf (.object obj) = some kid ∧
      (∀ other ∈ pre ++ post, kidOf other ≠ some kid) ∧
      jose.parseJwk (stripMeta obj) = some jwk ∧ jose.fromJwk jwk = some key ∧
      SignedWith token key header.alg ∧ MeantFor obj header.alg ∧
      (obj.lookup "kty" = some (.string "oct") ↔ header.alg.isHmac = true) ∧
      (SuitsAlgorithm obj header.alg ↔ PlainCurve obj)) ∧
      ∀ jose', jose.SameSelection jose' → self.verify jose' now token = .ok u := by
  refine ⟨?_, fun jose' h => (verify_of_sameSelection h now token).trans hverify⟩
  obtain ⟨claims, hcarries, -⟩ := verify_eq_ok_iff.1 hverify
  obtain ⟨header, kid, rawKeys, pre, obj, post, jwk, key, hheader, hkid, hkeys, hsplit, hobj, hother, hjwk,
    hkey, hsigned, hmeant, hsuits⟩ := hcarries.keyBinding hsig hnew hcrv hload
  exact ⟨header, kid, rawKeys, pre, obj, post, jwk, key, hheader, hkid, hkeys, hsplit, hobj, hother, hjwk,
    hkey, hsigned, hmeant, hmeant.oct_iff, hsuits⟩

/-! ## A key on a curve -/

namespace Fixture

/-- A key on the curve P-256, with what its `crv` is. -/
def curveKey (crv : Json.Value) : List (String × Json.Value) :=
  [("kty", .string "EC"), ("kid", .string "ec"), ("crv", crv), ("x", .string "AQ"), ("y", .string "Ag")]

def curveJwksJson : String :=
  "\x7b\"keys\":[\x7b\"kty\":\"EC\",\"kid\":\"ec\",\"crv\":\"P-256\",\"x\":\"AQ\",\"y\":\"Ag\"\x7d]\x7d"

/-- The curve is that of another algorithm, and no text. -/
def otherCurveJwksJson : String :=
  "\x7b\"keys\":[\x7b\"kty\":\"EC\",\"kid\":\"ec\",\"crv\":\x7b\"P-384\":null\x7d,\"x\":\"AQ\",\"y\":\"Ag\"\x7d]\x7d"

def otherCurve : Json.Value := .object [("P-384", .null)]

/-- `serde` reads the name of a curve from a text, and from an object with it as its member. -/
def curveName : Json.Value → Option String
  | .string curve | .object [(curve, .null)] => some curve
  | _ => none

/-- Keys are parsed to their curve and their point, of which the point makes the key. -/
def curveJose : Jose (String × String × String) (String × String) where
  parseJson text :=
    if text = curveJwksJson then .ok (.object [("keys", .array [.object (curveKey (.string "P-256"))])])
    else if text = otherCurveJwksJson then .ok (.object [("keys", .array [.object (curveKey otherCurve)])])
    else .error "expected value at line 1 column 1"
  parseJwk v := match v.get "kty", (v.get "crv").bind curveName, v.get "x", v.get "y" with
    | some (.string "EC"), some curve, some (.string x), some (.string y) => some (curve, x, y)
    | _, _, _, _ => none
  fromJwk jwk := some jwk.2
  decodeHeader t := if t = token then some { alg := .ES256, kid := some "ec" } else none
  newValidation := validation
  decode t key validation :=
    if t = token ∧ key = ("AQ", "Ag") ∧ validation.algorithms = [.ES256] then .ok claims
    else .error .invalidSignature

def curveVerifier (crv : Json.Value) : JwtVerifier (String × String) where
  policy := policy
  keys := (∅ : HashMap _ _).insert "ec" ⟨("AQ", "Ag"), JwkMeta.ofObject (curveKey crv)⟩

/-- What signed the token of the fixture. -/
def SignedByCurve (t : String) (key : String × String) (alg : Algorithm) : Prop :=
  t = token ∧ key = ("AQ", "Ag") ∧ alg = .ES256

theorem checksSignatures : curveJose.ChecksSignatures SignedByCurve := by
  intro t key validation claims h
  simp only [curveJose] at h
  split at h
  · rename_i hd
    exact ⟨.ES256, by simp [hd.2.2], hd.1, hd.2.1, rfl⟩
  · cases h

theorem validatesAlgorithm : curveJose.ValidatesAlgorithm := fun _ => rfl

theorem requiresCurve : curveJose.RequiresCurve := by
  intro obj jwk h hcurves hcrv
  simp only [curveJose, Json.Value.get, hcrv, Option.bind_none] at h
  split at h
  · contradiction
  · cases h

theorem fromJwksJson_curve :
    JwtVerifier.fromJwksJson curveJose policy curveJwksJson = .ok (curveVerifier (.string "P-256")) := rfl

theorem fromJwksJson_otherCurve :
    JwtVerifier.fromJwksJson curveJose policy otherCurveJwksJson = .ok (curveVerifier otherCurve) := rfl

end Fixture

/-- The key of the fixture has the curve of the algorithm. -/
theorem verify_keyBinding_fixture :
    ∃ header obj, Fixture.curveJose.decodeHeader Fixture.token = some header ∧
      kidOf (.object obj) = header.kid ∧ header.alg.curve ≠ none ∧ SuitsAlgorithm obj header.alg := by
  have hverify : (Fixture.curveVerifier (.string "P-256")).verify Fixture.curveJose (some 1000) Fixture.token =
      .ok "administrator" := by decide +kernel
  obtain ⟨⟨header, kid, rawKeys, _, obj, _, _, _, hheader, hkid, hkeys, hsplit, hobj, -, -, -, -, -, -, hsuits⟩, -⟩ :=
    verify_keyBinding Fixture.checksSignatures Fixture.validatesAlgorithm Fixture.requiresCurve
      Fixture.fromJwksJson_curve hverify
  have hmem : .object obj ∈ rawKeys := by simp [hsplit]
  rw [← Option.some.inj hkeys, List.mem_singleton] at hmem
  obtain rfl := Json.Value.object.inj hmem
  obtain rfl := Option.some.inj hheader
  refine ⟨_, _, rfl, hobj.trans hkid.symm, by decide, hsuits.2 fun _ v hv => ?_⟩
  exact ⟨"P-256", (Option.some.inj hv).symm⟩

/-- A key with another curve, which is no text, verifies a token. -/
theorem verify_keyBinding_counterexample :
    ¬∀ (jose : Jose (String × String × String) (String × String))
      (SignedWith : String → String × String → Algorithm → Prop)
      (jwksJson : String) (self : JwtVerifier (String × String)) (now : Option UInt64) (token u : String)
      (header : Header) (kid : String) (rawKeys : List Json.Value) (obj : List (String × Json.Value)),
      jose.ChecksSignatures SignedWith → jose.ValidatesAlgorithm → jose.RequiresCurve →
      JwtVerifier.fromJwksJson jose Fixture.policy jwksJson = .ok self → self.verify jose now token = .ok u →
      jose.decodeHeader token = some header → header.kid = some kid →
      jwksKeys jose jwksJson = some rawKeys → .object obj ∈ rawKeys →
      kidOf (.object obj) = some kid → SuitsAlgorithm obj header.alg := by
  intro h
  have hverify : (Fixture.curveVerifier Fixture.otherCurve).verify Fixture.curveJose (some 1000) Fixture.token =
      .ok "administrator" := by decide +kernel
  have hsuits := h Fixture.curveJose Fixture.SignedByCurve Fixture.otherCurveJwksJson
    (Fixture.curveVerifier Fixture.otherCurve) (some 1000) Fixture.token "administrator"
    { alg := .ES256, kid := some "ec" } "ec" _ (Fixture.curveKey Fixture.otherCurve)
    Fixture.checksSignatures Fixture.validatesAlgorithm Fixture.requiresCurve Fixture.fromJwksJson_otherCurve
    hverify rfl rfl rfl (List.mem_singleton_self _) rfl
  cases hsuits.crv "P-256" rfl

end CrudeOAuth
