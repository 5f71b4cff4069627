import CrudeOAuth.Core.Jwt.Verifier

/-!
# What is loaded from a JWKS

Loading goes over the keys of a JWKS once. `loadKey_eq_ok` is what one key does to
the state of the loop, `foldlM_loadKey_eq_ok` what the loop does:

* it fails on an element that is no object, and on a `kid` that occurred before;
* otherwise it binds the `kid` of each usable element to the key made of that one
  element (`signingKeyOf`), and skips all others (`lookup_loadKeys`).

`fromJwksJson_eq_ok` puts the checks around the loop together with it.
-/

namespace CrudeOAuth

open Rust

variable {Jwk Key : Type}

/-! ## One key -/

/-- The `kid` of an element, if it is a string. -/
def kidOf (rawKey : Json.Value) : Option String := (rawKey.get "kid").bind Json.Value.asStr

/-- The signing key made of an element, if it is usable. -/
def signingKeyOf (jose : Jose Jwk Key) (obj : List (String × Json.Value)) : Option (SigningKey Key) :=
  let jwkMeta := JwkMeta.ofObject obj
  if jwkMeta.useAllows && jwkMeta.keyOpsAllow && jwkMeta.algSupported then
    ((jose.parseJwk (stripMeta obj)).bind jose.fromJwk).map fun key => { key, jwkMeta }
  else none

theorem signingKeyOf_eq_some {jose : Jose Jwk Key} {obj : List (String × Json.Value)}
    {k : SigningKey Key} :
    signingKeyOf jose obj = some k ↔
      ((JwkMeta.ofObject obj).useAllows = true ∧ (JwkMeta.ofObject obj).keyOpsAllow = true ∧
        (JwkMeta.ofObject obj).algSupported = true) ∧
      ∃ jwk key, jose.parseJwk (stripMeta obj) = some jwk ∧ jose.fromJwk jwk = some key ∧
        k = { key, jwkMeta := JwkMeta.ofObject obj } := by
  simp only [signingKeyOf]
  constructor
  · intro h
    split at h
    · rename_i hm
      obtain ⟨key, hkey, rfl⟩ := Option.map_eq_some_iff.1 h
      obtain ⟨jwk, hjwk, hkey⟩ := Option.bind_eq_some_iff.1 hkey
      simp only [Bool.and_eq_true, and_assoc] at hm
      exact ⟨hm, jwk, key, hjwk, hkey, rfl⟩
    · cases h
  · rintro ⟨⟨hu, ho, ha⟩, jwk, key, hjwk, hkey, rfl⟩
    simp [hu, ho, ha, hjwk, hkey]

/-- The state after an element, if it does not make the loop fail. -/
def addKey (jose : Jose Jwk Key) (st : LoadState Key) (rawKey : Json.Value) : LoadState Key :=
  match kidOf rawKey with
  | none => st
  | some kid =>
    { seenKids := insert kid st.seenKids
      keys := match rawKey.asObject.bind (signingKeyOf jose) with
        | none => st.keys
        | some k => st.keys.insert kid k }

variable {jose : Jose Jwk Key} {st st' : LoadState Key} {rawKey : Json.Value} {xs : List Json.Value}

theorem loadKey_object (obj : List (String × Json.Value)) :
    loadKey jose st (.object obj) = match kidOf (.object obj) with
      | none => .ok st
      | some kid =>
        if kid ∈ st.seenKids then .error (.configError (.duplicateKid kid))
        else .ok (addKey jose st (.object obj)) := by
  have hkid : (obj.lookup "kid").bind Json.Value.asStr = kidOf (.object obj) := rfl
  simp only [loadKey, Json.Value.asObject, okOrElse, except_ok_bind, hkid]
  cases hk : kidOf (.object obj) with
  | none => rfl
  | some kid =>
    by_cases hseen : kid ∈ st.seenKids
    · simp [check, hseen]
    · simp only [check, hseen, not_false_eq_true, decide_true, if_true, except_ok_bind, if_false,
        addKey, hk, Json.Value.asObject, Option.bind_some]
      -- A key that is skipped at one of the checks has had its `kid` recorded already.
      cases hu : (JwkMeta.ofObject obj).useAllows with
      | false => simp [signingKeyOf, hu]
      | true =>
        cases ho : (JwkMeta.ofObject obj).keyOpsAllow with
        | false => simp [signingKeyOf, ho]
        | true =>
          cases ha : (JwkMeta.ofObject obj).algSupported with
          | false => simp [signingKeyOf, ha]
          | true =>
            cases hjwk : jose.parseJwk (stripMeta obj) with
            | none => simp [signingKeyOf, hjwk]
            | some jwk => cases hkey : jose.fromJwk jwk <;> simp [signingKeyOf, hu, ho, ha, hjwk, hkey]

/-- What an element does to the state of the loop. -/
theorem loadKey_eq_ok :
    loadKey jose st rawKey = .ok st' ↔
      (∃ obj, rawKey = .object obj) ∧ (∀ kid, kidOf rawKey = some kid → kid ∉ st.seenKids) ∧
        st' = addKey jose st rawKey := by
  constructor
  · intro h
    obtain ⟨obj, hobj, h'⟩ := except_bind_eq_ok.1 h
    obtain rfl := Json.Value.asObject_eq_some.1 (okOrElse_eq_ok.1 hobj)
    rw [loadKey_object] at h
    refine ⟨⟨obj, rfl⟩, ?_⟩
    cases hk : kidOf (.object obj) with
    | none =>
      rw [hk] at h
      cases h
      exact ⟨by simp, by simp [addKey, hk]⟩
    | some kid =>
      simp only [hk] at h
      split at h
      · cases h
      · rename_i hseen
        cases h
        exact ⟨by rintro _ ⟨⟩; exact hseen, rfl⟩
  · rintro ⟨⟨obj, rfl⟩, hnew, rfl⟩
    rw [loadKey_object]
    cases hk : kidOf (.object obj) with
    | none => simp [addKey, hk]
    | some kid => simp [hnew kid hk]

/-! ## The loop -/

theorem mem_seenKids_addKey {kid : String} :
    kid ∈ (addKey jose st rawKey).seenKids ↔ kidOf rawKey = some kid ∨ kid ∈ st.seenKids := by
  cases hk : kidOf rawKey with
  | none => simp [addKey, hk]
  | some kid' => simp [addKey, hk, eq_comm]

/-- What the loop does: it fails on an element that is no object and on a `kid` seen
    before, and otherwise adds all elements. -/
theorem foldlM_loadKey_eq_ok :
    xs.foldlM (loadKey jose) st = .ok st' ↔
      (∀ x ∈ xs, ∃ obj, x = .object obj) ∧ (xs.filterMap kidOf).Nodup ∧
        (∀ kid ∈ xs.filterMap kidOf, kid ∉ st.seenKids) ∧ st' = xs.foldl (addKey jose) st := by
  -- The later elements are compared with the `kid` of `x` through the state that `x` leaves.
  induction xs generalizing st with
  | nil => simp [pure, Except.pure, eq_comm]
  | cons x xs ih =>
    simp only [List.foldlM_cons, except_bind_eq_ok, loadKey_eq_ok, ih, List.foldl_cons, List.forall_mem_cons]
    cases hk : kidOf x with
    | none =>
      rw [List.filterMap_cons_none hk]
      constructor
      · rintro ⟨_, ⟨hx, -, rfl⟩, hxs, hnodup, hnew, h⟩
        exact ⟨⟨hx, hxs⟩, hnodup, fun kid hm => mem_seenKids_addKey.not.1 (hnew kid hm) ∘ .inr, h⟩
      · rintro ⟨⟨hx, hxs⟩, hnodup, hnew, h⟩
        exact ⟨_, ⟨hx, by simp, rfl⟩, hxs, hnodup,
          fun kid hm => mem_seenKids_addKey.not.2 (by simp [hk, hnew kid hm]), h⟩
    | some kid =>
      rw [List.filterMap_cons_some hk, List.nodup_cons, List.forall_mem_cons]
      constructor
      · rintro ⟨_, ⟨hx, hseen, rfl⟩, hxs, hnodup, hnew, h⟩
        have hnew' := fun k hm => not_or.1 (mem_seenKids_addKey.not.1 (hnew k hm))
        exact ⟨⟨hx, hxs⟩, ⟨fun hm => (hnew' kid hm).1 hk, hnodup⟩,
          ⟨hseen kid rfl, fun k hm => (hnew' k hm).2⟩, h⟩
      · rintro ⟨⟨hx, hxs⟩, ⟨hkid, hnodup⟩, ⟨hseen, hnew⟩, h⟩
        refine ⟨_, ⟨hx, by rintro _ ⟨⟩; exact hseen, rfl⟩, hxs, hnodup, fun k hm => ?_, h⟩
        rw [mem_seenKids_addKey, hk, not_or]
        exact ⟨fun e => hkid (Option.some.inj e ▸ hm), hnew k hm⟩

/-- The keys loaded from some elements. -/
def loadKeys (jose : Jose Jwk Key) (xs : List Json.Value) : HashMap String (SigningKey Key) :=
  (xs.foldl (addKey jose) { seenKids := ∅, keys := ∅ }).keys

theorem lookup_addKey_of_ne {kid : String} (h : kidOf rawKey ≠ some kid) :
    (addKey jose st rawKey).keys.lookup kid = st.keys.lookup kid := by
  unfold addKey
  cases hk : kidOf rawKey with
  | none => rfl
  | some kid' =>
    have hne : kid ≠ kid' := fun e => h (hk.trans (congrArg some e.symm))
    cases rawKey.asObject.bind (signingKeyOf jose) with
    | none => rfl
    | some k => exact Finmap.lookup_insert_of_ne _ hne

theorem lookup_addKey {kid : String} (hk : kidOf rawKey = some kid) (h : st.keys.lookup kid = none) :
    (addKey jose st rawKey).keys.lookup kid = rawKey.asObject.bind (signingKeyOf jose) := by
  unfold addKey
  rw [hk]
  cases rawKey.asObject.bind (signingKeyOf jose) with
  | none => exact h
  | some k => exact Finmap.lookup_insert _

theorem lookup_foldl_addKey_of_notMem {kid : String} (h : kid ∉ xs.filterMap kidOf) :
    (xs.foldl (addKey jose) st).keys.lookup kid = st.keys.lookup kid := by
  induction xs generalizing st with
  | nil => rfl
  | cons x xs ih =>
    have hx : kidOf x ≠ some kid := fun e => h (List.mem_filterMap.2 ⟨x, List.mem_cons_self, e⟩)
    have hxs : kid ∉ xs.filterMap kidOf := fun hm => by
      obtain ⟨y, hy, e⟩ := List.mem_filterMap.1 hm
      exact h (List.mem_filterMap.2 ⟨y, List.mem_cons_of_mem _ hy, e⟩)
    rw [List.foldl_cons, ih hxs, lookup_addKey_of_ne hx]

/-- The only element with a `kid` is what this `kid` is bound to. -/
theorem lookup_loadKeys {pre post : List Json.Value} {x : Json.Value} {kid : String}
    (hk : kidOf x = some kid) (hpre : kid ∉ pre.filterMap kidOf) (hpost : kid ∉ post.filterMap kidOf) :
    (loadKeys jose (pre ++ x :: post)).lookup kid = x.asObject.bind (signingKeyOf jose) := by
  rw [loadKeys, List.foldl_append, List.foldl_cons, lookup_foldl_addKey_of_notMem hpost]
  exact lookup_addKey hk (lookup_foldl_addKey_of_notMem hpre)

/-- A `kid` that is bound is that of exactly one element. -/
theorem exists_of_lookup_loadKeys {kid : String} {k : SigningKey Key} (hnodup : (xs.filterMap kidOf).Nodup)
    (h : (loadKeys jose xs).lookup kid = some k) :
    ∃ pre obj post, xs = pre ++ .object obj :: post ∧ kidOf (.object obj) = some kid ∧
      kid ∉ pre.filterMap kidOf ∧ kid ∉ post.filterMap kidOf ∧ signingKeyOf jose obj = some k := by
  -- A `kid` that no element has is bound to nothing, as it was at the start.
  have hmem : kid ∈ xs.filterMap kidOf := by
    by_contra hno
    rw [loadKeys, lookup_foldl_addKey_of_notMem hno, Finmap.lookup_empty] at h
    cases h
  obtain ⟨x, hx, hk⟩ := List.mem_filterMap.1 hmem
  obtain ⟨pre, post, rfl⟩ := List.append_of_mem hx
  rw [List.filterMap_append, List.filterMap_cons_some hk, List.nodup_append] at hnodup
  obtain ⟨-, hpost, hdisj⟩ := hnodup
  have hpre : kid ∉ pre.filterMap kidOf := fun hm => hdisj kid hm kid List.mem_cons_self rfl
  have hpost : kid ∉ post.filterMap kidOf := (List.nodup_cons.1 hpost).1
  rw [lookup_loadKeys hk hpre hpost] at h
  obtain ⟨obj, hobj, hkey⟩ := Option.bind_eq_some_iff.1 h
  obtain rfl := Json.Value.asObject_eq_some.1 hobj
  exact ⟨pre, obj, post, rfl, hk, hpre, hpost, hkey⟩

/-! ## The JWKS -/

/-- The elements of the `keys` array of a JWKS text. -/
def jwksKeys (jose : Jose Jwk Key) (jwksJson : String) : Option (List Json.Value) :=
  (jose.parseJson jwksJson).toOption.bind fun raw => (raw.get "keys").bind Json.Value.asArray

/-- What loading a verifier takes, and what it gives. -/
theorem fromJwksJson_eq_ok {policy : JwtPolicy} {jwksJson : String} {self : JwtVerifier Key} :
    JwtVerifier.fromJwksJson jose policy jwksJson = .ok self ↔
      (policy.trustedAudiences ≠ [] ∧ policy.trustedIssuer ≠ "" ∧ policy.allowedAlgorithms ≠ some []) ∧
        ∃ rawKeys, jwksKeys jose jwksJson = some rawKeys ∧ rawKeys ≠ [] ∧
          (∀ x ∈ rawKeys, ∃ obj, x = .object obj) ∧ (rawKeys.filterMap kidOf).Nodup ∧
          (loadKeys jose rawKeys).keys ≠ ∅ ∧ self = { policy, keys := loadKeys jose rawKeys } := by
  have hkeys : ∀ rawKeys, jwksKeys jose jwksJson = some rawKeys ↔
      ∃ raw, jose.parseJson jwksJson = .ok raw ∧ (raw.get "keys").bind Json.Value.asArray = some rawKeys := by
    intro rawKeys
    rw [jwksKeys]
    cases jose.parseJson jwksJson <;> simp [Except.toOption]
  simp only [JwtVerifier.fromJwksJson, except_bind_eq_ok, check_eq_ok, exists_const, okOrElse_eq_ok,
    mapError_eq_ok, foldlM_loadKey_eq_ok, decide_eq_true_eq, hkeys]
  constructor
  · rintro ⟨haud, hiss, halg, raw, hraw, rawKeys, hrawKeys, hne, _, ⟨hobj, hnodup, -, rfl⟩, hany, h⟩
    cases h
    exact ⟨⟨haud, hiss, halg⟩, rawKeys, ⟨raw, hraw, hrawKeys⟩, by simpa using hne, hobj, hnodup, hany, rfl⟩
  · rintro ⟨⟨haud, hiss, halg⟩, rawKeys, ⟨raw, hraw, hrawKeys⟩, hne, hobj, hnodup, hany, rfl⟩
    exact ⟨haud, hiss, halg, raw, hraw, rawKeys, hrawKeys, by simpa using hne, _,
      ⟨hobj, hnodup, by simp, rfl⟩, hany, rfl⟩

theorem policy_of_fromJwksJson {policy : JwtPolicy} {jwksJson : String} {self : JwtVerifier Key}
    (h : JwtVerifier.fromJwksJson jose policy jwksJson = .ok self) : self.policy = policy := by
  obtain ⟨-, _, -, -, -, -, -, rfl⟩ := fromJwksJson_eq_ok.1 h
  rfl

end CrudeOAuth
