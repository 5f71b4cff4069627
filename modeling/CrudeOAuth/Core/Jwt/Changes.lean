import CrudeOAuth.Core.Jwt.Dates
import CrudeOAuth.Core.Jwt.Jwks

/-!
# Changes of keys and policies

How the answers of a verifier change with its keys and with its policy.

* `rotation`: the verifier for the keys of two sets together answers as that for the first set
  where this knows the key of a token, and as that for the second set otherwise, errors
  included. It can be loaded exactly if the sets share no `kid`.
* `verify_mono`: a policy that is no stricter accepts whatever is accepted under the other, for
  the same name, with any more keys.
-/

namespace CrudeOAuth

open Rust JwtVerifier

variable {Jwk Key : Type} {jose : Jose Jwk Key} {policy policy' : JwtPolicy} {now : Option UInt64} {token u kid : String}
  {xs ys : List Json.Value}

/-! ## Keys -/

/-- The verifier has a key for the token, as far as its header says. -/
def JwtVerifier.Knows (jose : Jose Jwk Key) (self : JwtVerifier Key) (token : String) : Prop :=
  ∃ header kid k, jose.decodeHeader token = some header ∧ header.kid = some kid ∧ self.keys.lookup kid = some k

/-- Of the keys, only the one that the header names matters. -/
theorem verify_congr_keys {self self' : JwtVerifier Key} (hpolicy : self'.policy = self.policy)
    (hkey : ∀ header kid, jose.decodeHeader token = some header → header.kid = some kid →
      self'.keys.lookup kid = self.keys.lookup kid) : self'.verify jose now token = self.verify jose now token := by
  obtain ⟨policy, keys⟩ := self
  obtain ⟨policy', keys'⟩ := self'
  obtain rfl : policy' = policy := hpolicy
  simp only [verify]
  cases hheader : jose.decodeHeader token with
  | none => rfl
  | some header =>
    cases hkid : header.kid with
    | none =>
      simp only [okOrElse, except_ok_bind, hkid]
      rfl
    | some kid =>
      simp only [okOrElse, except_ok_bind, hkid, hkey header kid hheader hkid]
      rfl

theorem nodup_kids_append : ((xs ++ ys).filterMap kidOf).Nodup ↔ (xs.filterMap kidOf).Nodup ∧
    (ys.filterMap kidOf).Nodup ∧ ∀ kid ∈ xs.filterMap kidOf, kid ∉ ys.filterMap kidOf := by
  rw [List.filterMap_append, List.nodup_append']
  rfl

/-- The keys of two sets together, where no `kid` is in both. -/
theorem lookup_loadKeys_append (hnodup : ((xs ++ ys).filterMap kidOf).Nodup) :
    (loadKeys jose (xs ++ ys)).lookup kid =
      ((loadKeys jose xs).lookup kid).or ((loadKeys jose ys).lookup kid) := by
  obtain ⟨hxs, hys, -⟩ := nodup_kids_append.1 hnodup
  have happend : ∀ k, (loadKeys jose (xs ++ ys)).lookup kid = some k ↔
      (loadKeys jose xs).lookup kid = some k ∨ (loadKeys jose ys).lookup kid = some k := by
    intro k
    rw [lookup_loadKeys_eq_some hnodup, lookup_loadKeys_eq_some hxs, lookup_loadKeys_eq_some hys, ← exists_or]
    simp only [List.mem_append, or_and_right]
  cases hfirst : (loadKeys jose xs).lookup kid with
  | some k => exact (happend k).2 (.inl hfirst)
  | none =>
    rw [Option.none_or]
    refine Option.ext fun k => (happend k).trans (or_iff_right ?_)
    rw [hfirst]
    exact fun h => by cases h

/-- Only a `kid` of an element is bound to a key. -/
theorem mem_kids_of_lookup_loadKeys {k : SigningKey Key} (hnodup : (xs.filterMap kidOf).Nodup)
    (h : (loadKeys jose xs).lookup kid = some k) : kid ∈ xs.filterMap kidOf := by
  obtain ⟨obj, hobj, husable⟩ := (lookup_loadKeys_eq_some hnodup).1 h
  exact List.mem_filterMap.2 ⟨_, hobj, (usable_iff.1 husable).1⟩

/-- Keys of a first set come first, -/
theorem verify_append_of_knows (hnodup : ((xs ++ ys).filterMap kidOf).Nodup)
    (h : JwtVerifier.Knows jose { policy, keys := loadKeys jose xs } token) :
    JwtVerifier.verify { policy, keys := loadKeys jose (xs ++ ys) } jose now token =
      JwtVerifier.verify { policy, keys := loadKeys jose xs } jose now token := by
  obtain ⟨header, kid, k, hheader, hkid, hk⟩ := h
  refine verify_congr_keys rfl fun header' kid' hheader' hkid' => ?_
  obtain rfl := Option.some.inj (hheader.symm.trans hheader')
  obtain rfl := Option.some.inj (hkid.symm.trans hkid')
  dsimp only at hk ⊢
  rw [lookup_loadKeys_append hnodup, hk, Option.some_or]

/-- and those of a second set count for all other tokens. -/
theorem verify_append_of_not_knows (hnodup : ((xs ++ ys).filterMap kidOf).Nodup)
    (h : ¬JwtVerifier.Knows jose { policy, keys := loadKeys jose xs } token) :
    JwtVerifier.verify { policy, keys := loadKeys jose (xs ++ ys) } jose now token =
      JwtVerifier.verify { policy, keys := loadKeys jose ys } jose now token := by
  refine verify_congr_keys rfl fun header kid hheader hkid => ?_
  dsimp only
  rw [lookup_loadKeys_append hnodup]
  cases hk : (loadKeys jose xs).lookup kid with
  | some k => exact absurd ⟨header, kid, k, hheader, hkid, hk⟩ h
  | none => exact Option.none_or

/-- A name is returned only for a token whose key is known. -/
theorem knows_of_verify {self : JwtVerifier Key} (h : self.verify jose now token = .ok u) :
    self.Knows jose token := by
  obtain ⟨_, ⟨-, -, header, hheader, -, -, kid, k, hkid, hk, -⟩, -⟩ := verify_eq_ok_iff.1 h
  exact ⟨header, kid, k, hheader, hkid, hk⟩

/-- No token has a key in both sets. -/
theorem not_knows_of_knows (hnodup : ((xs ++ ys).filterMap kidOf).Nodup)
    (hys : JwtVerifier.Knows jose { policy, keys := loadKeys jose ys } token) :
    ¬JwtVerifier.Knows jose { policy, keys := loadKeys jose xs } token := by
  obtain ⟨hnodup₁, hnodup₂, hdisj⟩ := nodup_kids_append.1 hnodup
  obtain ⟨header, kid, k, hheader, hkid, hk⟩ := hys
  rintro ⟨header', kid', k', hheader', hkid', hk'⟩
  obtain rfl := Option.some.inj (hheader.symm.trans hheader')
  obtain rfl := Option.some.inj (hkid.symm.trans hkid')
  exact hdisj kid (mem_kids_of_lookup_loadKeys hnodup₁ hk') (mem_kids_of_lookup_loadKeys hnodup₂ hk)

/-- Two sets of keys together: the verifier can be loaded if they share no `kid`, and answers as
    that for the first set where this has a key for the token, and else as that for the second. -/
theorem rotation {text₁ text₂ text : String} {self₁ self₂ : JwtVerifier Key}
    (hload₁ : fromJwksJson jose policy text₁ = .ok self₁) (hload₂ : fromJwksJson jose policy text₂ = .ok self₂)
    (hkeys₁ : jwksKeys jose text₁ = some xs) (hkeys₂ : jwksKeys jose text₂ = some ys)
    (hkeys : jwksKeys jose text = some (xs ++ ys)) :
    ((∃ self, fromJwksJson jose policy text = .ok self) ↔
      ∀ kid ∈ xs.filterMap kidOf, kid ∉ ys.filterMap kidOf) ∧
    ∀ self, fromJwksJson jose policy text = .ok self →
      (∀ now token, self₁.Knows jose token → self.verify jose now token = self₁.verify jose now token) ∧
      (∀ now token, ¬self₁.Knows jose token → self.verify jose now token = self₂.verify jose now token) ∧
      ∀ now token u, self.verify jose now token = .ok u ↔
        self₁.verify jose now token = .ok u ∨ self₂.verify jose now token = .ok u := by
  obtain ⟨hpolicy, xs', hxs, hne, hobj₁, hnodup₁, hany, rfl⟩ := fromJwksJson_eq_ok.1 hload₁
  obtain ⟨-, ys', hys, -, hobj₂, hnodup₂, -, rfl⟩ := fromJwksJson_eq_ok.1 hload₂
  obtain rfl : xs = xs' := Option.some.inj (hkeys₁.symm.trans hxs)
  obtain rfl : ys = ys' := Option.some.inj (hkeys₂.symm.trans hys)
  refine ⟨⟨?_, fun hdisj => ?_⟩, fun self hself => ?_⟩
  · rintro ⟨self, hself⟩
    obtain ⟨-, zs, hzs, -, -, hnodup, -⟩ := fromJwksJson_eq_ok.1 hself
    obtain rfl := Option.some.inj (hkeys.symm.trans hzs)
    exact (nodup_kids_append.1 hnodup).2.2
  · have hnodup := nodup_kids_append.2 ⟨hnodup₁, hnodup₂, hdisj⟩
    obtain ⟨obj, kid, k, hmem, husable⟩ := (keys_loadKeys_ne_empty hnodup₁).1 hany
    refine ⟨_, fromJwksJson_eq_ok.2 ⟨hpolicy, _, hkeys, by simp [hne], ?_, hnodup, ?_, rfl⟩⟩
    · exact fun x hx => (List.mem_append.1 hx).elim (hobj₁ x) (hobj₂ x)
    · exact (keys_loadKeys_ne_empty hnodup).2 ⟨obj, kid, k, List.mem_append_left _ hmem, husable⟩
  · obtain ⟨-, zs, hzs, -, -, hnodup, -, rfl⟩ := fromJwksJson_eq_ok.1 hself
    obtain rfl := Option.some.inj (hkeys.symm.trans hzs)
    refine ⟨fun _ _ => verify_append_of_knows hnodup, fun _ _ => verify_append_of_not_knows hnodup,
      fun now token u => ⟨fun h => ?_, ?_⟩⟩
    · by_cases hknows : JwtVerifier.Knows jose { policy, keys := loadKeys jose xs } token
      · exact .inl (verify_append_of_knows hnodup hknows ▸ h)
      · exact .inr (verify_append_of_not_knows hnodup hknows ▸ h)
    · rintro (h | h)
      · exact (verify_append_of_knows hnodup (knows_of_verify h)).trans h
      · exact (verify_append_of_not_knows hnodup (not_knows_of_knows hnodup (knows_of_verify h))).trans h

namespace Fixture

/-- The key that a provider changes to. -/
def nextJwk : Json.Value :=
  .object [("kty", .string "RSA"), ("kid", .string "next"), ("use", .string "sig"), ("alg", .string "RS256"),
    ("n", .string "Aw"), ("e", .string "AQAB")]

def nextJwksJson : String :=
  "\x7b\"keys\":[\x7b\"kty\":\"RSA\",\"kid\":\"next\",\"use\":\"sig\",\"alg\":\"RS256\",\"n\":\"Aw\",\"e\":\"AQAB\"\x7d]\x7d"

/-- The JWKS during the change. -/
def bothJwksJson : String :=
  "\x7b\"keys\":[\x7b\"kty\":\"RSA\",\"kid\":\"sig\",\"use\":\"sig\",\"alg\":\"RS256\",\"n\":\"AQ\",\"e\":\"AQAB\"\x7d," ++
    "\x7b\"kty\":\"RSA\",\"kid\":\"next\",\"use\":\"sig\",\"alg\":\"RS256\",\"n\":\"Aw\",\"e\":\"AQAB\"\x7d]\x7d"

/-- The libraries, where the texts with the new key are parsed as well. -/
def rotationJose : Jose (String × String) (String × String) :=
  { Fixture.jose with
    parseJson := fun text =>
      if text = nextJwksJson then .ok (.object [("keys", .array [nextJwk])])
      else if text = bothJwksJson then .ok (.object [("keys", .array [signingJwk, nextJwk])])
      else Fixture.jose.parseJson text }

end Fixture

theorem Fixture.jwksKeys_nextJwksJson :
    jwksKeys Fixture.rotationJose Fixture.nextJwksJson = some [Fixture.nextJwk] := by
  simp only [jwksKeys, Fixture.rotationJose, if_true]
  rfl

theorem Fixture.jwksKeys_bothJwksJson :
    jwksKeys Fixture.rotationJose Fixture.bothJwksJson = some ([Fixture.signingJwk] ++ [Fixture.nextJwk]) := by
  have hne : Fixture.bothJwksJson ≠ Fixture.nextJwksJson := by decide +kernel
  simp only [jwksKeys, Fixture.rotationJose, if_neg hne, if_true]
  rfl

theorem Fixture.jwksKeys_jwksJson :
    jwksKeys Fixture.rotationJose Fixture.jwksJson = some [Fixture.signingJwk] := by
  have hne : Fixture.jwksJson ≠ Fixture.nextJwksJson := by decide +kernel
  have hne' : Fixture.jwksJson ≠ Fixture.bothJwksJson := by decide +kernel
  simp only [jwksKeys, Fixture.rotationJose, if_neg hne, if_neg hne']
  rfl

/-- A token of the old key is accepted during the change. -/
theorem rotation_fixture : ∃ self, fromJwksJson Fixture.rotationJose Fixture.policy Fixture.bothJwksJson = .ok self ∧
    self.verify Fixture.rotationJose (some 1000) Fixture.token = .ok "administrator" := by
  have hload : fromJwksJson Fixture.rotationJose Fixture.policy Fixture.jwksJson = .ok Fixture.verifier := rfl
  obtain ⟨next, hnext⟩ : ∃ next, fromJwksJson Fixture.rotationJose Fixture.policy Fixture.nextJwksJson = .ok next :=
    ⟨_, rfl⟩
  have hrotation := rotation hload hnext Fixture.jwksKeys_jwksJson Fixture.jwksKeys_nextJwksJson
    Fixture.jwksKeys_bothJwksJson
  have hverify : Fixture.verifier.verify Fixture.rotationJose (some 1000) Fixture.token = .ok "administrator" :=
    Fixture.verify_token
  obtain ⟨self, hself⟩ := hrotation.1.2 (by decide +kernel)
  exact ⟨self, hself, ((hrotation.2 self hself).2.2 _ _ _).2 (.inl hverify)⟩

/-! ## Policies -/

/-- The policy `p'` is no stricter than `p`. -/
structure JwtPolicy.Within (p p' : JwtPolicy) : Prop where
  uidAttr : p'.uidAttr = p.uidAttr
  issuer : p'.trustedIssuer = p.trustedIssuer
  grace : max p.grace 0 ≤ max p'.grace 0
  audiences : p.trustedAudiences ⊆ p'.trustedAudiences
  /-- No list of parties is no restriction, and not the strictest one. -/
  authorizedParties : p'.trustedAuthorizedParties = [] ∨
    p.trustedAuthorizedParties ≠ [] ∧ p.trustedAuthorizedParties ⊆ p'.trustedAuthorizedParties
  scopes : p'.requiredScopes ⊆ p.requiredScopes
  usernames : ∀ name' ∈ p'.disallowedUsernames, ∃ name ∈ p.disallowedUsernames, eqIgnoreCase name name' = true
  algorithms : ∀ a, a ∈ p.allowedAlgorithms.getD legacyAllowedAlgorithms → a ∉ p.disallowedAlgorithms →
    a ∈ p'.allowedAlgorithms.getD legacyAllowedAlgorithms ∧ a ∉ p'.disallowedAlgorithms

variable {self self' : JwtVerifier Key} {claims : Json.Value}

theorem JwtPolicy.Within.trustedAudience {aud : Option Json.Value} (hwithin : policy.Within policy')
    (h : TrustedAudience policy aud) : TrustedAudience policy' aud := by
  rcases h with ⟨s, haud, hs⟩ | ⟨xs, s, haud, hxs, hs⟩
  · exact .inl ⟨s, haud, hwithin.audiences hs⟩
  · exact .inr ⟨xs, s, haud, hxs, hwithin.audiences hs⟩

theorem JwtPolicy.Within.authorizedParty {azp : Option Json.Value} (hwithin : policy.Within policy')
    (h : policy.trustedAuthorizedParties = [] ∨ ∃ party ∈ policy.trustedAuthorizedParties, azp = some (.string party)) :
    policy'.trustedAuthorizedParties = [] ∨
      ∃ party ∈ policy'.trustedAuthorizedParties, azp = some (.string party) := by
  rcases hwithin.authorizedParties with hnone | ⟨hne, hsub⟩
  · exact .inl hnone
  · obtain ⟨party, hparty, hazp⟩ := h.resolve_left hne
    exact .inr ⟨party, hsub hparty, hazp⟩

theorem JwtPolicy.Within.checkValidityDates (hwithin : self.policy.Within self'.policy)
    (h : self.checkValidityDates now claims = .ok ()) : self'.checkValidityDates now claims = .ok () := by
  cases now with
  | none => cases h
  | some now =>
    obtain ⟨⟨exp, hexp, hle⟩, ⟨nbf, hnbf, hnot⟩, iat, hiat, hnot'⟩ := checkValidityDates_eq_ok.1 h
    have hadd := @saturatingAdd_le now.toInt64 _ _ hwithin.grace
    exact checkValidityDates_eq_ok.2 ⟨⟨exp, hexp, Int64.le_trans (saturatingSub_le hwithin.grace) hle⟩,
      ⟨nbf, hnbf, fun t ht => Int64.le_trans (hnot t ht) hadd⟩,
      iat, hiat, fun t ht => Int64.le_trans (hnot' t ht) hadd⟩

theorem JwtPolicy.Within.allowed (hwithin : policy.Within policy')
    (h : ∀ name ∈ policy.disallowedUsernames, eqIgnoreCase name u = false) :
    ∀ name ∈ policy'.disallowedUsernames, eqIgnoreCase name u = false := by
  intro name' hname'
  obtain ⟨name, hname, hsame⟩ := hwithin.usernames name' hname'
  rw [← Bool.not_eq_true, eqIgnoreCase_iff]
  intro hu
  refine Bool.false_ne_true ((h name hname).symm.trans (eqIgnoreCase_iff.2 ?_))
  exact (eqIgnoreCase_iff.1 hsame).trans hu

/-- What is acceptable under a policy is so under one that is no stricter. -/
theorem JwtPolicy.Within.acceptable (hwithin : self.policy.Within self'.policy) (h : Acceptable self now claims u) :
    Acceptable self' now claims u where
  issuer := hwithin.issuer ▸ h.issuer
  audience := hwithin.trustedAudience h.audience
  authorizedParty := hwithin.authorizedParty h.authorizedParty
  dates := hwithin.checkValidityDates h.dates
  scopes required hmem := h.scopes required (hwithin.scopes hmem)
  uid := hwithin.uidAttr ▸ h.uid
  uid_ne := h.uid_ne
  clean := h.clean
  allowed := hwithin.allowed h.allowed

/-- What is carried with some keys is so with any more of them. -/
theorem JwtPolicy.Within.carries (hwithin : self.policy.Within self'.policy)
    (hkeys : ∀ kid k, self.keys.lookup kid = some k → self'.keys.lookup kid = some k)
    (h : Carries jose self token claims) : Carries jose self' token claims := by
  obtain ⟨hlen, hdots, header, hheader, halg, hdis, kid, k, hkid, hk, hfits, hdecode⟩ := h
  obtain ⟨halg', hdis'⟩ := hwithin.algorithms header.alg halg hdis
  exact ⟨hlen, hdots, header, hheader, halg', hdis', kid, k, hkid, hkeys kid k hk, hfits, hdecode⟩

/-- A policy that is no stricter accepts, with any more keys, what is accepted under the other,
    for the same name. -/
theorem verify_mono (hwithin : self.policy.Within self'.policy)
    (hkeys : ∀ kid k, self.keys.lookup kid = some k → self'.keys.lookup kid = some k)
    (h : self.verify jose now token = .ok u) : self'.verify jose now token = .ok u := by
  obtain ⟨claims, hcarries, haccept⟩ := verify_eq_ok_iff.1 h
  exact verify_eq_ok_iff.2 ⟨claims, hwithin.carries hkeys hcarries, hwithin.acceptable haccept⟩

/-- Without the scope and with a second audience, the token of the fixture stays accepted. -/
theorem verify_mono_fixture :
    JwtVerifier.verify { Fixture.verifier with
      policy := { Fixture.policy with
        requiredScopes := []
        trustedAudiences := ["account", "ldaps://example.org/"] } }
      Fixture.jose (some 1000) Fixture.token = .ok "administrator" := by
  refine @verify_mono _ _ _ _ _ _ Fixture.verifier _ ⟨rfl, rfl, Int64.le_refl _, ?_, .inl rfl, List.nil_subset _, ?_, ?_⟩
    (fun _ _ h => h) Fixture.verify_token
  · exact List.subset_cons_self _ _
  · exact fun name hname => ⟨name, hname, eqIgnoreCase_iff.2 rfl⟩
  · exact fun _ halg hdis => ⟨halg, hdis⟩

end CrudeOAuth
