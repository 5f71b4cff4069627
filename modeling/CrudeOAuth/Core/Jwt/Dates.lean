import CrudeOAuth.Core.Jwt.Verify

/-!
# The validity window

The dates of a token are compared with the clock in the arithmetic of `i64`, which
saturates. For dates that are integers this is the comparison of unbounded integers
(`checkValidityDates_exact`): the token is accepted in the seconds from
`max nbf iat - grace` to `exp + grace`, where a negative grace counts as none.
-/

namespace CrudeOAuth

open Rust

variable {Key : Type} {self : JwtVerifier Key} {value : Option Json.Value} {claims : Json.Value}

/-! ## Dates -/

/-- The integer that a number without a fraction stands for. -/
def integerOf : Json.Value → Option Int
  | .number (.posInt n) => some n.toNat
  | .number (.negInt i) => some i.toInt
  | _ => none

/-- The member is an integer in the range of `i64`. -/
def IsDate (value : Option Json.Value) (t : Int) : Prop :=
  t < 2 ^ 63 ∧ ∃ v, value = some v ∧ integerOf v = some t

/-- An integer is not less than the least `i64`. -/
theorem IsDate.exists_toInt {t : Int} (h : IsDate value t) : ∃ d : Int64, d.toInt = t := by
  obtain ⟨hlt, v, -, hv⟩ := h
  have hle : -2 ^ 63 ≤ t := by
    unfold integerOf at hv
    split at hv
    · rw [← Option.some.inj hv]
      omega
    · rename_i i
      rw [← Option.some.inj hv]
      exact i.le_toInt
    · cases hv
  refine ⟨Int64.ofIntClamp t, ?_⟩
  rw [toInt_ofIntClamp]
  omega

/-- The member is missing, or an integer, or no number. -/
def NoFraction (value : Option Json.Value) : Prop := ∀ q, value ≠ some (.number (.float q))

theorem numericDate_eq_some (h : NoFraction value) {d : Int64} :
    numericDate value = .ok (some d) ↔ IsDate value d.toInt := by
  have hd := d.toInt_lt
  cases value with
  | none => simp [numericDate, IsDate]
  | some v =>
    simp only [IsDate, Option.some.injEq, exists_eq_left']
    cases v with
    | number n =>
      cases n with
      | posInt n =>
        simp only [numericDate, Json.Value.asI64, Json.Value.asU64, integerOf, Option.some.injEq]
        by_cases hn : n.toNat < 2 ^ 63
        · simp only [if_pos hn, Except.ok.injEq, Option.some.injEq, ← Int64.toInt_inj, toInt_toInt64 hn]
          omega
        · simp only [if_neg hn]
          exact iff_of_false (by simp) (by omega)
      | negInt i =>
        simp only [numericDate, Json.Value.asI64, integerOf, Except.ok.injEq, Option.some.injEq,
          ← Int64.toInt_inj]
        exact (and_iff_right hd).symm
      | float q => exact absurd rfl (h q)
    | _ => simp [numericDate, Json.Value.asI64, Json.Value.asU64, Json.Value.asFloat, integerOf]

theorem numericDate_eq_none : numericDate value = .ok none ↔ value = none := by
  cases value with
  | none => simp [numericDate]
  | some v =>
    refine iff_of_false (fun h => ?_) (by simp)
    unfold numericDate at h
    split at h
    · rename_i heq
      cases heq
    · split at h
      · cases h
      · split at h
        · split at h <;> cases h
        · split at h
          · split at h <;> cases h
          · cases h

theorem numericDate_eq_error {e : OAuthError} (h : numericDate value = .error e) : e = .claimExpired := by
  unfold numericDate at h
  split at h
  · cases h
  · split at h
    · cases h
    · split at h
      · split at h <;> cases h
        rfl
      · split at h
        · split at h <;> cases h
          rfl
        · cases h
          rfl

/-! ## The window -/

/-- A token with the claims is valid at `now`, with `grace` seconds of grace. -/
structure WithinWindow (grace now : Int) (claims : Json.Value) : Prop where
  exp : ∃ t, IsDate (claims.get "exp") t ∧ now - grace ≤ t
  nbf : claims.get "nbf" = none ∨ ∃ t, IsDate (claims.get "nbf") t ∧ t ≤ now + grace
  iat : claims.get "iat" = none ∨ ∃ t, IsDate (claims.get "iat") t ∧ t ≤ now + grace

/-- The claims are valid in the seconds of an interval, -/
theorem WithinWindow.between {grace now₁ now now₂ : Int} (h₁ : WithinWindow grace now₁ claims)
    (h₂ : WithinWindow grace now₂ claims) (hle₁ : now₁ ≤ now) (hle₂ : now ≤ now₂) :
    WithinWindow grace now claims where
  exp := by
    obtain ⟨t, ht, hle⟩ := h₂.exp
    exact ⟨t, ht, by omega⟩
  nbf := h₁.nbf.imp_right fun ⟨t, ht, hle⟩ => ⟨t, ht, by omega⟩
  iat := h₁.iat.imp_right fun ⟨t, ht, hle⟩ => ⟨t, ht, by omega⟩

/-- which grows with the grace. -/
theorem WithinWindow.mono {grace grace' now : Int} (h : WithinWindow grace now claims)
    (hle : grace ≤ grace') : WithinWindow grace' now claims where
  exp := by
    obtain ⟨t, ht, hlt⟩ := h.exp
    exact ⟨t, ht, by omega⟩
  nbf := h.nbf.imp_right fun ⟨t, ht, hlt⟩ => ⟨t, ht, by omega⟩
  iat := h.iat.imp_right fun ⟨t, ht, hlt⟩ => ⟨t, ht, by omega⟩

/-- A date that need not be there is not after a limit. -/
theorem numericDate_le {limit : Int64} {bound : Int} (h : NoFraction value)
    (hlimit : ∀ t : Int, t < 2 ^ 63 → (t ≤ limit.toInt ↔ t ≤ bound)) :
    (∃ d, numericDate value = .ok d ∧ ∀ t ∈ d, t ≤ limit) ↔
      value = none ∨ ∃ t, IsDate value t ∧ t ≤ bound := by
  constructor
  · rintro ⟨_ | d, hd, hle⟩
    · exact .inl (numericDate_eq_none.1 hd)
    · exact .inr ⟨_, (numericDate_eq_some h).1 hd,
        (hlimit _ d.toInt_lt).1 (Int64.le_iff_toInt_le.1 (hle d rfl))⟩
  · rintro (hnone | ⟨t, ht, hle⟩)
    · exact ⟨none, numericDate_eq_none.2 hnone, by simp⟩
    · obtain ⟨d, rfl⟩ := ht.exists_toInt
      refine ⟨some d, (numericDate_eq_some h).2 ht, ?_⟩
      rintro _ ⟨⟩
      exact Int64.le_iff_toInt_le.2 ((hlimit _ ht.1).2 hle)

namespace JwtVerifier

theorem checkValidityDates_eq_ok {now : UInt64} {u : Unit} :
    self.checkValidityDates (some now) claims = .ok u ↔
      (∃ exp, numericDate (claims.get "exp") = .ok (some exp) ∧
        saturatingSub now.toInt64 (max self.policy.grace 0) ≤ exp) ∧
      (∃ nbf, numericDate (claims.get "nbf") = .ok nbf ∧
        ∀ t ∈ nbf, t ≤ saturatingAdd now.toInt64 (max self.policy.grace 0)) ∧
      ∃ iat, numericDate (claims.get "iat") = .ok iat ∧
        ∀ t ∈ iat, t ≤ saturatingAdd now.toInt64 (max self.policy.grace 0) := by
  simp only [checkValidityDates, okOrElse, except_ok_bind]
  rcases numericDate (claims.get "exp") with e | _ | exp
  · simp
  · simp
  · rcases numericDate (claims.get "nbf") with e | nbf
    · simp
    · rcases numericDate (claims.get "iat") with e | iat
      · simp
      · simp [Option.any_eq_false, and_assoc]

/-- The two errors of the check, and when which of them is reported. -/
theorem checkValidityDates_eq_error {now : UInt64} {e : OAuthError}
    (h : self.checkValidityDates (some now) claims = .error e) :
    e = .missingExpiration ∧ (∀ exp, numericDate (claims.get "exp") ≠ .ok (some exp)) ∨
      e = .claimExpired ∧ ∃ exp, numericDate (claims.get "exp") = .ok (some exp) := by
  simp only [checkValidityDates, okOrElse, except_ok_bind] at h
  rcases hexp : numericDate (claims.get "exp") with e' | _ | exp
  · rw [hexp] at h
    exact .inl ⟨(Except.error.inj h).symm, by simp⟩
  · rw [hexp] at h
    exact .inl ⟨(Except.error.inj h).symm, by simp⟩
  · simp only [hexp] at h
    refine .inr ⟨?_, exp, rfl⟩
    rcases except_bind_eq_error.1 h with h | ⟨nbf, -, h⟩
    · exact numericDate_eq_error h
    · rcases except_bind_eq_error.1 h with h | ⟨iat, -, h⟩
      · exact numericDate_eq_error h
      · exact (check_eq_error.1 h).2.symm

/-- The lower bound of the window does not saturate, and the upper one only where it is beyond
    all dates. -/
theorem checkValidityDates_eq_ok_iff (hexp : NoFraction (claims.get "exp")) (hnbf : NoFraction (claims.get "nbf"))
    (hiat : NoFraction (claims.get "iat")) {now : UInt64} (hnow : now.toNat < 2 ^ 63) {u : Unit} :
    self.checkValidityDates (some now) claims = .ok u ↔
      WithinWindow (max self.policy.grace.toInt 0) now.toNat claims := by
  have hgrace : (max self.policy.grace 0).toInt = max self.policy.grace.toInt 0 := toInt_max _ _
  have hlt := (max self.policy.grace 0).toInt_lt
  have hsub : (saturatingSub now.toInt64 (max self.policy.grace 0)).toInt =
      now.toNat - max self.policy.grace.toInt 0 := by
    rw [toInt_saturatingSub, toInt_toInt64 hnow]
    omega
  have hadd : ∀ t : Int, t < 2 ^ 63 → (t ≤ (saturatingAdd now.toInt64 (max self.policy.grace 0)).toInt ↔
      t ≤ now.toNat + max self.policy.grace.toInt 0) := by
    intro t ht
    rw [toInt_saturatingAdd, toInt_toInt64 hnow]
    omega
  rw [checkValidityDates_eq_ok, numericDate_le hnbf hadd, numericDate_le hiat hadd]
  constructor
  · rintro ⟨⟨exp, hdate, hle⟩, hn, hi⟩
    exact ⟨⟨_, (numericDate_eq_some hexp).1 hdate, hsub ▸ Int64.le_iff_toInt_le.1 hle⟩, hn, hi⟩
  · rintro ⟨⟨t, hdate, hle⟩, hn, hi⟩
    obtain ⟨exp, rfl⟩ := hdate.exists_toInt
    exact ⟨⟨exp, (numericDate_eq_some hexp).2 hdate, Int64.le_iff_toInt_le.2 (hsub ▸ hle)⟩, hn, hi⟩

/-- The window is exact for claims whose dates are integers, missing, or no numbers: which
    seconds are in it, what is reported for the others, that they form an interval, and
    that this grows with the grace. -/
theorem checkValidityDates_exact (self : JwtVerifier Key) {claims : Json.Value}
    (hexp : NoFraction (claims.get "exp")) (hnbf : NoFraction (claims.get "nbf"))
    (hiat : NoFraction (claims.get "iat")) :
    (∀ now : UInt64, now.toNat < 2 ^ 63 →
      (self.checkValidityDates (some now) claims = .ok () ↔
        WithinWindow (max self.policy.grace.toInt 0) now.toNat claims) ∧
      (self.checkValidityDates (some now) claims = .error .missingExpiration ↔
        ∀ t, ¬IsDate (claims.get "exp") t) ∧
      ∀ e, self.checkValidityDates (some now) claims = .error e →
        e = .missingExpiration ∨ e = .claimExpired) ∧
    (∀ now₁ now now₂ : UInt64, now₁ ≤ now → now ≤ now₂ → now₂.toNat < 2 ^ 63 →
      self.checkValidityDates (some now₁) claims = .ok () →
      self.checkValidityDates (some now₂) claims = .ok () →
        self.checkValidityDates (some now) claims = .ok ()) ∧
    ∀ self' : JwtVerifier Key, self.policy.grace ≤ self'.policy.grace → ∀ now : UInt64,
      now.toNat < 2 ^ 63 → self.checkValidityDates (some now) claims = .ok () →
        self'.checkValidityDates (some now) claims = .ok () := by
  refine ⟨fun now hnow => ⟨checkValidityDates_eq_ok_iff hexp hnbf hiat hnow, ?_, fun e he => ?_⟩, ?_, ?_⟩
  · have hdate : (∀ exp, numericDate (claims.get "exp") ≠ .ok (some exp)) ↔
        ∀ t, ¬IsDate (claims.get "exp") t := by
      constructor
      · intro hno t ht
        obtain ⟨d, rfl⟩ := ht.exists_toInt
        exact hno d ((numericDate_eq_some hexp).2 ht)
      · exact fun hno exp h => hno _ ((numericDate_eq_some hexp).1 h)
    rw [← hdate]
    constructor
    · intro h
      rcases checkValidityDates_eq_error h with ⟨-, hno⟩ | ⟨h, -⟩
      · exact hno
      · cases h
    · intro hno
      cases h : self.checkValidityDates (some now) claims with
      | ok u =>
        obtain ⟨⟨exp, hexp, -⟩, -⟩ := checkValidityDates_eq_ok.1 h
        exact absurd hexp (hno exp)
      | error e =>
        rcases checkValidityDates_eq_error h with ⟨rfl, -⟩ | ⟨-, exp, hexp⟩
        · rfl
        · exact absurd hexp (hno exp)
  · exact (checkValidityDates_eq_error he).imp And.left And.left
  · intro now₁ now now₂ hle₁ hle₂ hlt h₁ h₂
    rw [UInt64.le_iff_toNat_le] at hle₁ hle₂
    rw [checkValidityDates_eq_ok_iff hexp hnbf hiat (by omega)] at h₁ h₂ ⊢
    exact h₁.between h₂ (by omega) (by omega)
  · intro self' hle now hnow h
    rw [Int64.le_iff_toInt_le] at hle
    rw [checkValidityDates_eq_ok_iff hexp hnbf hiat hnow] at h ⊢
    exact h.mono (by omega)

/-- The claims of the fixture expire three seconds, the grace, after their date. -/
theorem checkValidityDates_exact_fixture :
    Fixture.verifier.checkValidityDates (some 1303) Fixture.claims = .ok () ∧
      Fixture.verifier.checkValidityDates (some 1304) Fixture.claims ≠ .ok () := by
  have hget : Fixture.claims.get "exp" = some (.number (.posInt 1300)) := rfl
  have hexact := (@checkValidityDates_exact _ Fixture.verifier Fixture.claims (by rintro q ⟨⟩)
    (by rintro q ⟨⟩) (by rintro q ⟨⟩)).1
  constructor
  · refine (hexact 1303 (by decide)).1.2 ⟨⟨1300, ⟨by decide, _, rfl, rfl⟩, by decide⟩, .inl rfl,
      .inr ⟨1000, ⟨by decide, _, rfl, rfl⟩, by decide⟩⟩
  · intro h
    obtain ⟨t, ⟨-, v, hv, ht⟩, hle⟩ := ((hexact 1304 (by decide)).1.1 h).exp
    obtain rfl := Option.some.inj (hget.symm.trans hv)
    obtain rfl := Option.some.inj ht
    exact absurd hle (by decide)

end JwtVerifier

end CrudeOAuth
