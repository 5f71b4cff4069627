import CrudeOAuth.Core.Config
import Mathlib.Data.List.Nodup

/-!
# What the options say

`PolicyOptions.read` returns what the options say (`PolicyOptions.read_eq_ok`): a numbered
option says the values up to its first number that is unset (`Numbered`), a list option
says these or, where there are none, the words of the option without a number (`Listed`).

It looks at nothing else: two lookups that agree on the names of options, which have no
NUL in them, give the same result (`PolicyOptions.read_congr`).
-/

namespace CrudeOAuth

open Rust Rust.Outcome

variable {get get' : Getter} {name pre option : String} {values result : List String}
  {options : PolicyOptions}

@[simp] theorem getOption_eq_ok {value : Option String} :
    getOption get name = .ok value ↔ get name = .ok value := by
  unfold getOption
  split <;> simp_all

/-! ## Numbered options -/

/-- The option is set with the numbers from 0 on, to the values. -/
def SetTo (get : Getter) (pre : String) (values : List String) : Prop :=
  ∀ (i : Nat) (v : String), values[i]? = some v → get (pre ++ toString i) = .ok (some v) ∧ v ≠ ""

/-- The values of the option with the numbers from 0, up to the first that is unset. A number
    is a `usize`. -/
structure Numbered (get : Getter) (pre : String) (values : List String) : Prop where
  isSet : SetTo get pre values
  isUnset : get (pre ++ toString values.length) = .ok none
  count : values.length < 2 ^ 64

theorem setTo_nil : SetTo get pre [] := fun _ _ h => by simp at h

theorem setTo_concat {v : String} : SetTo get pre (values ++ [v]) ↔
    SetTo get pre values ∧ get (pre ++ toString values.length) = .ok (some v) ∧ v ≠ "" := by
  constructor
  · intro h
    refine ⟨fun i w hi => h i w ?_, h _ v (by simp)⟩
    rw [List.getElem?_append_left (List.getElem?_eq_some_iff.1 hi).1]
    exact hi
  · rintro ⟨h, hv⟩ i w hi
    rw [List.getElem?_append] at hi
    split at hi
    · exact h i w hi
    · rename_i hlen
      obtain ⟨hlast, hw⟩ := List.getElem?_eq_some_iff.1 hi
      obtain rfl : i = values.length := by
        rw [List.length_singleton] at hlast
        omega
      obtain rfl : v = w := by simpa using hw
      exact hv

/-- What follows some of the values: either these were all, or there is a next one. -/
theorem Numbered.next (h : Numbered get pre result) (hbegin : values <+: result) :
    (result = values ∧ get (pre ++ toString values.length) = .ok none) ∨
      ∃ v, v ≠ "" ∧ values ++ [v] <+: result ∧ get (pre ++ toString values.length) = .ok (some v) := by
  obtain ⟨more, rfl⟩ := hbegin
  cases more with
  | nil =>
    rw [List.append_nil] at h ⊢
    exact .inl ⟨rfl, h.isUnset⟩
  | cons v more =>
    obtain ⟨hget, hv⟩ := h.isSet values.length v (by simp)
    exact .inr ⟨v, hv, ⟨more, by simp⟩, hget⟩

/-- The loop finds the values of the option, having found the first ones of them. -/
theorem getIndexedLoop_eq_ok {fuel : Nat} (hfuel : values.length + fuel = 2 ^ 64)
    (hset : SetTo get pre values) :
    getIndexedLoop get pre fuel values.length values = .ok result ↔
      values <+: result ∧ Numbered get pre result := by
  induction fuel generalizing values with
  | zero =>
    refine iff_of_false (by simp [getIndexedLoop]) fun ⟨hbegin, h⟩ => ?_
    have hle := hbegin.length_le
    have hlt := h.count
    omega
  | succ fuel ih =>
    have hnext : ∀ v, v ≠ "" → get (pre ++ toString values.length) = .ok (some v) →
        (getIndexedLoop get pre fuel (values.length + 1) (values ++ [v]) = .ok result ↔
          values ++ [v] <+: result ∧ Numbered get pre result) := by
      intro v hv hget
      have hlen : (values ++ [v]).length = values.length + 1 := List.length_append
      rw [← hlen]
      exact ih (by omega) (setTo_concat.2 ⟨hset, hget, hv⟩)
    rw [getIndexedLoop, bind_eq_ok]
    simp only [getOption_eq_ok]
    constructor
    · rintro ⟨value, hget, h⟩
      split at h
      · rename_i v
        split at h
        · rename_i hv
          obtain ⟨hbegin, h⟩ := (hnext v hv hget).1 h
          exact ⟨(List.prefix_append _ _).trans hbegin, h⟩
        · cases h
      · obtain rfl := Outcome.ok.inj h
        exact ⟨List.prefix_rfl, hset, hget, by omega⟩
    · rintro ⟨hbegin, h⟩
      rcases h.next hbegin with ⟨rfl, hget⟩ | ⟨v, hv, hbegin', hget⟩
      · exact ⟨none, hget, rfl⟩
      · refine ⟨some v, hget, ?_⟩
        dsimp only
        rw [if_pos hv]
        exact (hnext v hv hget).2 ⟨hbegin', h⟩

theorem getIndexed_eq_ok : getIndexed get pre = .ok values ↔ Numbered get pre values := by
  have h := @getIndexedLoop_eq_ok get pre [] values (2 ^ 64) (Nat.zero_add _) setTo_nil
  rw [getIndexed]
  exact h.trans (and_iff_right List.nil_prefix)

/-- The numbers come to an end at the first that is unset. -/
theorem numbered_nil : Numbered get pre [] ↔ get (pre ++ "0") = .ok none :=
  ⟨fun h => h.isUnset, fun h => ⟨setTo_nil, h, Nat.two_pow_pos 64⟩⟩

/-! ## List options -/

/-- The words of an option without a number. -/
def optionWords (text : String) : List String :=
  (splitWhere (fun c => c == ',' || isAsciiWhitespace c) text).filter (· ≠ "")

/-- The values of the option with numbers or, where there are none, the words of the option
    without a number. -/
inductive Listed (get : Getter) (name : String) : List String → Prop
  | numbered {values : List String} (h : Numbered get name values) (hne : values ≠ []) :
      Listed get name values
  | words {text : String} (h : Numbered get name []) (htext : get name = .ok (some text)) :
      Listed get name (optionWords text)
  | unset (h : Numbered get name []) (hunset : get name = .ok none) : Listed get name []

theorem getListOption_eq_ok : getListOption get name = .ok values ↔ Listed get name values := by
  rw [getListOption, bind_eq_ok]
  simp only [getIndexed_eq_ok]
  constructor
  · rintro ⟨indexed, hindexed, h⟩
    split at h
    · rename_i hne
      obtain rfl := Outcome.ok.inj h
      exact .numbered hindexed hne
    · rename_i hnil
      obtain rfl := not_not.1 hnil
      obtain ⟨value, hget, h⟩ := bind_eq_ok.1 h
      rw [getOption_eq_ok] at hget
      cases value with
      | none =>
        obtain rfl := Outcome.ok.inj h
        exact .unset hindexed hget
      | some text =>
        obtain rfl := Outcome.ok.inj h
        exact .words hindexed hget
  · intro h
    cases h with
    | numbered h hne => exact ⟨values, h, if_pos hne⟩
    | words h htext => exact ⟨[], h, by simp [htext, getOption, optionWords]⟩
    | unset h hunset => exact ⟨[], h, by simp [hunset, getOption]⟩

/-- A text has no words if there is nothing between its separators. -/
theorem optionWords_eq_nil {text : String} :
    optionWords text = [] ↔ ∀ c ∈ text.toList, c = ',' ∨ isAsciiWhitespace c = true := by
  rw [optionWords, splitWhere_eq_nil]
  simp only [Bool.or_eq_true, beq_iff_eq]

/-! ## Algorithms -/

/-- The algorithms, each of them once. -/
def distinctAlgorithms (algs : List Algorithm) : List Algorithm := algs.foldl pushAlgorithm []

theorem distinctAlgorithms_concat {algs : List Algorithm} {a : Algorithm} :
    distinctAlgorithms (algs ++ [a]) = pushAlgorithm (distinctAlgorithms algs) a := List.foldl_concat ..

theorem mem_pushAlgorithm {algs : List Algorithm} {a b : Algorithm} :
    b ∈ pushAlgorithm algs a ↔ b ∈ algs ∨ b = a := by
  unfold pushAlgorithm
  split <;> simp_all

theorem mem_distinctAlgorithms {algs : List Algorithm} {a : Algorithm} :
    a ∈ distinctAlgorithms algs ↔ a ∈ algs := by
  induction algs using List.reverseRecOn with
  | nil => rfl
  | append_singleton algs b ih =>
    rw [distinctAlgorithms_concat, mem_pushAlgorithm, ih, List.mem_append, List.mem_singleton]

theorem nodup_distinctAlgorithms (algs : List Algorithm) : (distinctAlgorithms algs).Nodup := by
  induction algs using List.reverseRecOn with
  | nil => exact List.nodup_nil
  | append_singleton algs a ih =>
    rw [distinctAlgorithms_concat, pushAlgorithm]
    split
    · exact ih
    · rename_i hnew
      rw [← List.concat_eq_append, List.nodup_concat]
      exact ⟨hnew, ih⟩

/-- The allow-list of the algorithms that are named; there is none if none is. -/
def namedAlgorithms (parsed : List Algorithm) : Option (List Algorithm) :=
  if parsed = [] then none else some (distinctAlgorithms parsed)

/-- The algorithms are those that the values are the names of. -/
theorem parseAlgorithms_eq_ok {algs : List Algorithm} : parseAlgorithms option values = .ok algs ↔
    ∃ parsed, values = parsed.map algorithmName ∧ algs = distinctAlgorithms parsed := by
  have hloop : ∀ found, (values.foldlM (fun result value => do
      let alg ← okOr (parseAlgorithmName value) (.invalidAlgorithm option value)
      .ok (pushAlgorithm result alg)) found : Outcome OptionsError (List Algorithm)) = .ok algs ↔
        ∃ parsed : List Algorithm,
          values = parsed.map algorithmName ∧ algs = parsed.foldl pushAlgorithm found := by
    induction values with
    | nil =>
      intro found
      simp [eq_comm]
    | cons value values ih =>
      intro found
      simp only [List.foldlM_cons, bind_eq_ok, okOr_eq_ok, parseAlgorithmName_eq_some]
      constructor
      · rintro ⟨_, ⟨alg, rfl, h⟩, hrest⟩
        obtain rfl := Outcome.ok.inj h
        obtain ⟨parsed, rfl, rfl⟩ := (ih _).1 hrest
        exact ⟨alg :: parsed, rfl, rfl⟩
      · rintro ⟨parsed, hvalues, rfl⟩
        cases parsed with
        | nil => cases hvalues
        | cons alg parsed =>
          obtain ⟨rfl, rfl⟩ := List.cons.inj hvalues
          exact ⟨_, ⟨alg, rfl, rfl⟩, (ih _).2 ⟨parsed, rfl, rfl⟩⟩
  exact hloop []

/-! ## All options -/

/-- The allow-list is that of the algorithms that are named. -/
def ReadsAllowed (get : Getter) (allowed : Option (List Algorithm)) : Prop :=
  ∃ parsed, Listed get "oauthbearer_allowed_alg" (parsed.map algorithmName) ∧
    allowed = namedAlgorithms parsed

/-- The options other than the allow-list say this. -/
structure ReadsRest (get : Getter) (options : PolicyOptions) : Prop where
  userid : ∃ v, get "oauthbearer_userid" = .ok v ∧
    options.uidAttr = (v.filter (· ≠ "")).getD "preferred_username"
  grace : ∃ v, get "oauthbearer_grace" = .ok v ∧ parseI64 (v.getD "3") = .ok options.grace
  disallowed : ∃ parsed, Listed get "oauthbearer_disallowed_alg" (parsed.map algorithmName) ∧
    options.disallowedAlgorithms = distinctAlgorithms parsed
  iss : ∃ v, get "oauthbearer_trusted_iss0" = .ok v ∧ options.trustedIssuer = v.filter (· ≠ "")
  jwks : ∃ v, get "oauthbearer_trusted_jwks0" = .ok v ∧ options.jwksPath = v.filter (· ≠ "")
  aud : Numbered get "oauthbearer_trusted_aud" options.trustedAudiences
  azp : Numbered get "oauthbearer_trusted_azp" options.trustedAuthorizedParties
  scope : Numbered get "oauthbearer_required_scope" options.requiredScopes
  username : Listed get "oauthbearer_disallowed_username" options.disallowedUsernames

/-- No names are no allow-list, and others are that of the algorithms that they name. -/
theorem allowed_eq_ok {allowed : Option (List Algorithm)} :
    (if values = [] then .ok none else some <$> parseAlgorithms option values) = .ok allowed ↔
      ∃ parsed, values = parsed.map algorithmName ∧ allowed = namedAlgorithms parsed := by
  split
  · rename_i hnil
    subst hnil
    simp [namedAlgorithms, eq_comm]
  · rename_i hne
    constructor
    · intro h
      obtain ⟨algs, halgs, h⟩ := bind_eq_ok.1 h
      obtain rfl := Outcome.ok.inj h
      obtain ⟨parsed, rfl, rfl⟩ := parseAlgorithms_eq_ok.1 halgs
      exact ⟨parsed, rfl, (if_neg (by simpa using hne)).symm⟩
    · rintro ⟨parsed, rfl, rfl⟩
      rw [namedAlgorithms, if_neg (by simpa using hne), parseAlgorithms_eq_ok.2 ⟨parsed, rfl, rfl⟩]
      rfl

theorem PolicyOptions.read_eq_ok : PolicyOptions.read get = .ok options ↔
    ReadsAllowed get options.allowedAlgorithms ∧ ReadsRest get options := by
  simp only [PolicyOptions.read, bind_eq_ok, getOption_eq_ok, getIndexed_eq_ok, getListOption_eq_ok,
    parseAlgorithms_eq_ok, allowed_eq_ok]
  constructor
  · rintro ⟨userid, huserid, graceText, hgraceText, grace, hgrace, _, hallowed, _, ⟨allowed, rfl, rfl⟩,
      _, hdisallowed, _, ⟨parsed, rfl, rfl⟩, iss, hiss, jwks, hjwks, aud, haud, azp, hazp, scope, hscope,
      username, husername, h⟩
    obtain rfl := Outcome.ok.inj h
    split at hgrace
    · rename_i grace' hparse
      obtain rfl := Outcome.ok.inj hgrace
      exact ⟨⟨allowed, hallowed, rfl⟩, ⟨userid, huserid, rfl⟩, ⟨graceText, hgraceText, hparse⟩,
        ⟨parsed, hdisallowed, rfl⟩, ⟨iss, hiss, rfl⟩, ⟨jwks, hjwks, rfl⟩, haud, hazp, hscope, husername⟩
    · cases hgrace
  · rintro ⟨⟨allowed, hallowed, hall⟩, ⟨userid, huserid, huid⟩, ⟨graceText, hgraceText, hgrace⟩,
      ⟨parsed, hdisallowed, hdis⟩, ⟨iss, hiss, hi⟩, ⟨jwks, hjwks, hj⟩, haud, hazp, hscope, husername⟩
    refine ⟨userid, huserid, graceText, hgraceText, options.grace, ?_, _, hallowed, _, ⟨allowed, rfl, rfl⟩,
      _, hdisallowed, _, ⟨parsed, rfl, rfl⟩, iss, hiss, jwks, hjwks, _, haud, _, hazp, _, hscope, _, husername, ?_⟩
    · rw [hgrace]
    · rw [← huid, ← hall, ← hdis, ← hi, ← hj]

/-! ## Panics -/

/-- The prefixes that numbers are appended to. -/
def numberedOptions : List String :=
  ["oauthbearer_allowed_alg", "oauthbearer_disallowed_alg", "oauthbearer_trusted_aud",
    "oauthbearer_trusted_azp", "oauthbearer_required_scope", "oauthbearer_disallowed_username"]

theorem getOption_ne_panic : getOption get name ≠ .panic := by
  unfold getOption
  split <;> simp

/-- The numbers do not run out before an option that is unset. -/
theorem getIndexed_ne_panic (h : ∃ i < 2 ^ 64, get (pre ++ toString i) = .ok none) :
    getIndexed get pre ≠ .panic := by
  obtain ⟨i, hi, hunset⟩ := h
  have hloop : ∀ fuel index values, index ≤ i → i < index + fuel →
      getIndexedLoop get pre fuel index values ≠ .panic := by
    intro fuel
    induction fuel with
    | zero =>
      intro index values hle hlt
      omega
    | succ fuel ih =>
      intro index values hle hlt
      rw [getIndexedLoop]
      refine bind_ne_panic getOption_ne_panic fun value hvalue => ?_
      rw [getOption_eq_ok] at hvalue
      split
      · rename_i v
        split
        · have hne : index ≠ i := by
            rintro rfl
            rw [hunset] at hvalue
            cases hvalue
          exact ih _ _ (by omega) (by omega)
        · simp
      · simp
  exact hloop _ _ _ (Nat.zero_le i) (by omega)

theorem getListOption_ne_panic (h : ∃ i < 2 ^ 64, get (name ++ toString i) = .ok none) :
    getListOption get name ≠ .panic := by
  refine bind_ne_panic (getIndexed_ne_panic h) fun indexed _ => ?_
  split
  · simp
  · refine bind_ne_panic getOption_ne_panic fun value _ => ?_
    split <;> simp

theorem parseAlgorithms_ne_panic : parseAlgorithms option values ≠ .panic :=
  foldlM_ne_panic (fun _ _ => bind_ne_panic (okOr_ne_panic _ _) fun _ _ => by simp) _ _

theorem PolicyOptions.read_ne_panic
    (h : ∀ pre ∈ numberedOptions, ∃ i < 2 ^ 64, get (pre ++ toString i) = .ok none) :
    PolicyOptions.read get ≠ .panic := by
  simp only [numberedOptions, List.forall_mem_cons] at h
  obtain ⟨hallowed, hdisallowed, haud, hazp, hscope, husername, -⟩ := h
  rw [PolicyOptions.read]
  refine bind_ne_panic getOption_ne_panic fun userid _ => bind_ne_panic getOption_ne_panic fun grace _ =>
    bind_ne_panic ?_ fun _ _ => bind_ne_panic (getListOption_ne_panic hallowed) fun names _ =>
    bind_ne_panic ?_ fun _ _ => bind_ne_panic (getListOption_ne_panic hdisallowed) fun _ _ =>
    bind_ne_panic parseAlgorithms_ne_panic fun _ _ => bind_ne_panic getOption_ne_panic fun _ _ =>
    bind_ne_panic getOption_ne_panic fun _ _ => bind_ne_panic (getIndexed_ne_panic haud) fun _ _ =>
    bind_ne_panic (getIndexed_ne_panic hazp) fun _ _ => bind_ne_panic (getIndexed_ne_panic hscope) fun _ _ =>
    bind_ne_panic (getListOption_ne_panic husername) fun _ _ => ?_
  · split <;> simp
  · split
    · simp
    · exact bind_ne_panic parseAlgorithms_ne_panic fun algs _ => by simp
  · simp

/-! ## Lookups that agree -/

/-- A number is written in digits. -/
theorem isDigit_of_mem_toString {i : Nat} : ∀ c ∈ (toString i).toList, c.isDigit = true := by
  intro c hc
  have hdigit : c ∈ Nat.toDigits 10 i := by
    rw [← Nat.toList_repr]
    exact hc
  exact Nat.isDigit_of_mem_toDigits (by decide) (by decide) hdigit

/-- A number is read back from its digits. -/
theorem toString_inj {k k' : Nat} (h : toString k = toString k') : k = k' := by
  have hdigits : Nat.toDigits 10 k = Nat.toDigits 10 k' := by
    rw [← Nat.toList_repr, ← Nat.toList_repr]
    exact congrArg String.toList h
  calc k = Nat.ofDigitChars 10 (Nat.toDigits 10 k) 0 := Nat.ofDigitChars_ten_toDigits.symm
    _ = k' := by rw [hdigits, Nat.ofDigitChars_ten_toDigits]

/-- A name without the digits at its end. -/
def stem (name : String) : List Char := name.toList.rdropWhile Char.isDigit

theorem stem_append {s : String} (hs : ∀ c ∈ s.toList, c.isDigit = true) : stem (name ++ s) = stem name := by
  rw [stem, String.toList_append, List.rdropWhile, List.reverse_append,
    List.dropWhile_append_of_pos (by simpa using hs)]
  rfl

/-- The name of a numbered option has no NUL in it if the name without the number has none. -/
theorem nul_notMem_numbered (hpre : '\x00' ∉ pre.toList) (i : Nat) :
    '\x00' ∉ (pre ++ toString i).toList := by
  rw [String.toList_append, List.mem_append, not_or]
  refine ⟨hpre, fun h => ?_⟩
  exact absurd (isDigit_of_mem_toString _ h) (by decide)

/-- The search for an option looks at its numbered names only. -/
theorem getIndexed_congr_numbered (h : ∀ i : Nat, get (pre ++ toString i) = get' (pre ++ toString i)) :
    getIndexed get pre = getIndexed get' pre := by
  have hloop : ∀ fuel index values,
      getIndexedLoop get pre fuel index values = getIndexedLoop get' pre fuel index values := by
    intro fuel
    induction fuel with
    | zero => exact fun _ _ => rfl
    | succ fuel ih =>
      intro index values
      rw [getIndexedLoop, getIndexedLoop, getOption, getOption, h index]
      simp only [ih]
  exact hloop _ _ _

section Congr

variable (hget : ∀ name : String, '\x00' ∉ name.toList → get name = get' name)
include hget

theorem getOption_congr (hname : '\x00' ∉ name.toList) : getOption get name = getOption get' name := by
  rw [getOption, getOption, hget name hname]

theorem getIndexed_congr (hpre : '\x00' ∉ pre.toList) : getIndexed get pre = getIndexed get' pre :=
  getIndexed_congr_numbered fun i => hget _ (nul_notMem_numbered hpre i)

theorem getListOption_congr (hname : '\x00' ∉ name.toList) :
    getListOption get name = getListOption get' name := by
  rw [getListOption, getListOption, getIndexed_congr hget hname, getOption_congr hget hname]

theorem PolicyOptions.read_congr : PolicyOptions.read get = PolicyOptions.read get' := by
  simp (disch := decide) only [PolicyOptions.read, getOption_congr hget, getIndexed_congr hget,
    getListOption_congr hget]

end Congr

end CrudeOAuth
