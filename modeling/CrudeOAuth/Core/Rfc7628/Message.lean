import CrudeOAuth.Core.Rfc7628.SaslName

/-!
# Client responses

The OAUTHBEARER client response (`core/src/rfc7628.rs`): a GS2 header with an
optional authorization identity, then fields separated by the byte `0x01`, one of
them named `auth` and holding the bearer token, then `0x01` twice.

`parseClientResponse` and `buildClientResponse` are the functions of the source.
The parser takes its input apart in steps, each with its own result:

* `parseGs2` for the header (`parseGs2_eq_ok`);
* `authStep` for the loop over the fields, which keeps the value of the last `auth`
  field (`foldlM_authStep_eq_ok`);
* `parseBearer` for that value (`parseBearer_eq_ok`).
-/

namespace CrudeOAuth

open Rust Rust.Outcome

/-- The separator byte of the fields. -/
def kvsep : UInt8 := 0x01

def bearer : Bytes := utf8 "Bearer "

structure ClientResponse where
  authzid : Option String
  token : String
  deriving DecidableEq, Repr

/-- The body of the loop over the fields: the value of the last `auth` field so far. -/
def authStep (auth : Option Bytes) (field : Bytes) : Outcome Rfc7628Error (Option Bytes) :=
  if field = [] then .ok auth else do
    let eq ← okOr (position '='.toUInt8 field) .invalidKeyValue
    let key ← slice field 0 eq
    let value ← slice field (eq + 1) field.length
    if key = utf8 "auth" then .ok (some value) else .ok auth

/-- The authorization identity of the GS2 header `gs2`. -/
def parseGs2 (gs2 : Bytes) : Outcome Rfc7628Error (Option String) :=
  if gs2 = utf8 "n,," then .ok none
  else if (utf8 "n,a=").isPrefixOf gs2 ∧ (utf8 ",").isSuffixOf gs2 then do
    let stop ← sub gs2.length 1
    let name ← slice gs2 4 stop
    let encoded ← okOr (fromUtf8 name) .invalidUtf8
    let authzid ← decodeSaslname encoded
    .ok (some authzid)
  else .err .invalidGs2Header

/-- The token of the value of the `auth` field. -/
def parseBearer (auth : Bytes) : Outcome Rfc7628Error String := do
  ensure (bearer.length ≤ auth.length) .notBearer
  let scheme ← slice auth 0 bearer.length
  ensure (eqIgnoreAsciiCase scheme bearer) .notBearer
  let rest ← slice auth bearer.length auth.length
  let token ← okOr (fromUtf8 rest) .invalidUtf8
  ensure (token ≠ "") .notBearer
  .ok token

def parseClientResponse (input : Bytes) : Outcome Rfc7628Error ClientResponse := do
  let firstSep ← okOr (position kvsep input) .invalidGs2Header
  let gs2 ← slice input 0 firstSep
  let authzid ← parseGs2 gs2
  ensure ([kvsep, kvsep].isSuffixOf input) .missingTerminator
  let stop ← sub input.length 1
  let fields ← slice input (firstSep + 1) stop
  let auth ← (fields.splitOn kvsep).foldlM authStep none
  let auth ← okOr auth .missingAuth
  let token ← parseBearer auth
  .ok { authzid, token }

def buildClientResponse (authzid : Option String) (token : String) : Bytes :=
  (match authzid.filter (· ≠ "") with
    | some authzid => utf8 "n,a=" ++ utf8 (encodeSaslname authzid) ++ utf8 ","
    | none => utf8 "n,,") ++
  [kvsep] ++ utf8 "auth=Bearer " ++ utf8 token ++ [kvsep, kvsep]

/-! ## The header -/

/-- The GS2 header `gs2` carries the authorization identity `authzid`. -/
def IsGs2 (gs2 : Bytes) (authzid : Option String) : Prop :=
  (gs2 = utf8 "n,," ∧ authzid = none) ∨
    ∃ E : String, gs2 = utf8 "n,a=" ++ utf8 E ++ utf8 "," ∧ Escaped E.toList ∧
      authzid = some (String.ofList (replaceEscapes E.toList))

/-- A header starting with `n,a=` and ending with a comma has a name between the two. -/
theorem exists_name {gs2 : Bytes} (hp : utf8 "n,a=" <+: gs2) (hs : utf8 "," <:+ gs2) :
    ∃ name, gs2 = utf8 "n,a=" ++ (name ++ utf8 ",") := by
  obtain ⟨t, rfl⟩ := hp
  obtain ⟨u, hu⟩ := hs
  rcases List.append_eq_append_iff.1 hu with ⟨a, ha, hc⟩ | ⟨name, -, rfl⟩
  · -- The comma cannot be the last byte of `n,a=`.
    cases a with
    | nil => exact ⟨[], by rw [List.nil_append] at hc; rw [← hc]; rfl⟩
    | cons x a =>
      have hx : [x] <:+ utf8 "n,a=" := by
        obtain ⟨-, ht⟩ := List.cons.inj (hc : _ = x :: (a ++ t))
        obtain ⟨rfl, -⟩ := List.append_eq_nil_iff.1 ht.symm
        exact ⟨u, ha.symm⟩
      obtain ⟨rfl, -⟩ := List.cons.inj (hc : _ = x :: (a ++ t))
      exact absurd hx (by decide)
  · exact ⟨name, rfl⟩

theorem parseGs2_name (name : Bytes) :
    parseGs2 (utf8 "n,a=" ++ (name ++ utf8 ",")) =
      (okOr (fromUtf8 name) .invalidUtf8 >>= fun encoded =>
        decodeSaslname encoded >>= fun authzid => .ok (some authzid)) := by
  -- The third byte tells this header from the one without a name.
  have hne : utf8 "n,a=" ++ (name ++ utf8 ",") ≠ utf8 "n,," := fun h => by
    have : [110, 44, 97] <+: utf8 "n,," := ⟨61 :: (name ++ utf8 ","), h⟩
    exact absurd this (by decide)
  have hframe : (utf8 "n,a=").isPrefixOf (utf8 "n,a=" ++ (name ++ utf8 ",")) ∧
      (utf8 ",").isSuffixOf (utf8 "n,a=" ++ (name ++ utf8 ",")) := by
    rw [List.isPrefixOf_iff_prefix, List.isSuffixOf_iff_suffix]
    exact ⟨List.prefix_append _ _, List.suffix_append_of_suffix (List.suffix_append _ _)⟩
  have hlen : (utf8 "n,a=" ++ (name ++ utf8 ",")).length = name.length + 5 := by
    simp only [List.length_append]
    have h4 : (utf8 "n,a=").length = 4 := rfl
    have h1 : (utf8 ",").length = 1 := rfl
    omega
  have hslice : (slice (utf8 "n,a=" ++ (name ++ utf8 ",")) 4 (name.length + 5 - 1) :
      Outcome Rfc7628Error Bytes) = .ok name :=
    slice_append _ _ _ rfl (by have h4 : (utf8 "n,a=").length = 4 := rfl; omega)
  rw [parseGs2, if_neg hne, if_pos hframe, hlen, sub_of_le (by omega), ok_bind, hslice, ok_bind]

@[simp] theorem parseGs2_ne_panic (gs2 : Bytes) : parseGs2 gs2 ≠ .panic := by
  by_cases h0 : gs2 = utf8 "n,,"
  · rw [parseGs2, if_pos h0]
    simp
  · by_cases h : (utf8 "n,a=").isPrefixOf gs2 ∧ (utf8 ",").isSuffixOf gs2
    · obtain ⟨name, rfl⟩ := exists_name (List.isPrefixOf_iff_prefix.1 h.1)
        (List.isSuffixOf_iff_suffix.1 h.2)
      rw [parseGs2_name]
      exact bind_ne_panic (by simp) fun _ _ => bind_ne_panic (by simp) fun _ _ => by simp
    · rw [parseGs2, if_neg h0, if_neg h]
      simp

theorem parseGs2_eq_ok {gs2 : Bytes} {authzid : Option String} :
    parseGs2 gs2 = .ok authzid ↔ IsGs2 gs2 authzid := by
  constructor
  · intro h
    by_cases h0 : gs2 = utf8 "n,,"
    · rw [parseGs2, if_pos h0] at h
      cases h
      exact .inl ⟨h0, rfl⟩
    · by_cases hf : (utf8 "n,a=").isPrefixOf gs2 ∧ (utf8 ",").isSuffixOf gs2
      · obtain ⟨name, rfl⟩ := exists_name (List.isPrefixOf_iff_prefix.1 hf.1)
          (List.isSuffixOf_iff_suffix.1 hf.2)
        rw [parseGs2_name] at h
        obtain ⟨E, hE, h⟩ := bind_eq_ok.1 h
        obtain ⟨a, ha, h⟩ := bind_eq_ok.1 h
        cases h
        obtain ⟨he, hr⟩ := decodeSaslname_eq_ok.1 ha
        have hname := fromUtf8_eq_some.1 (okOr_eq_ok.1 hE)
        exact .inr ⟨E, by rw [hname, List.append_assoc], he, by rw [hr, String.ofList_toList]⟩
      · rw [parseGs2, if_neg h0, if_neg hf] at h
        cases h
  · rintro (⟨rfl, rfl⟩ | ⟨E, rfl, he, rfl⟩)
    · rfl
    · have ha : decodeSaslname E = .ok (String.ofList (replaceEscapes E.toList)) :=
        decodeSaslname_eq_ok.2 ⟨he, by rw [String.toList_ofList]⟩
      rw [List.append_assoc, parseGs2_name, fromUtf8_utf8]
      simp [okOr, ha]

/-! ## The fields -/

/-- The field `f` has the key `auth`, the part before its first `=`, and the value `v`. -/
def IsAuth (f v : Bytes) : Prop := f = utf8 "auth" ++ '='.toUInt8 :: v

/-- The value of a field with the key `auth`. -/
def authValue (f : Bytes) : Option Bytes :=
  if utf8 "auth=" <+: f then some (f.drop 5) else none

theorem authValue_eq_some {f v : Bytes} : authValue f = some v ↔ IsAuth f v := by
  unfold authValue IsAuth
  constructor
  · intro h
    split at h
    · rename_i hp
      obtain ⟨t, rfl⟩ := hp
      cases h
      rfl
    · cases h
  · rintro rfl
    rw [if_pos ⟨v, rfl⟩]
    rfl

theorem authValue_of_key {key value : Bytes} (hkey : '='.toUInt8 ∉ key) :
    authValue (key ++ '='.toUInt8 :: value) = if key = utf8 "auth" then some value else none := by
  split
  · rename_i h
    exact authValue_eq_some.2 (h ▸ rfl)
  · rename_i h
    rw [Option.eq_none_iff_forall_ne_some]
    intro v hv
    exact h (split_unique (authValue_eq_some.1 hv) hkey (by decide)).1

/-- A non-empty field without `=` is an error, and of the others those with the key
    `auth` replace the value kept so far. -/
theorem authStep_eq (auth : Option Bytes) (f : Bytes) :
    authStep auth f =
      if f ≠ [] ∧ '='.toUInt8 ∉ f then .err .invalidKeyValue else .ok ((authValue f).or auth) := by
  unfold authStep
  by_cases hf : f = []
  · subst hf
    simp [authValue, show ¬utf8 "auth=" <+: [] from by decide]
  · rw [if_neg hf]
    cases hpos : position '='.toUInt8 f with
    | none => simp [okOr, hf, position_eq_none.1 hpos]
    | some i =>
      obtain ⟨key, value, rfl, hkey, rfl⟩ := position_eq_some.1 hpos
      have hk : (slice (key ++ '='.toUInt8 :: value) 0 key.length : Outcome Rfc7628Error Bytes) = .ok key :=
        slice_append [] key _ rfl (by simp)
      have hv : (slice (key ++ '='.toUInt8 :: value) (key.length + 1) (key ++ '='.toUInt8 :: value).length :
          Outcome Rfc7628Error Bytes) = .ok value := by
        rw [slice_of_le (by simp) (Nat.le_refl _), List.take_length, ← List.drop_drop, List.drop_left]
        rfl
      simp only [okOr, ok_bind, hk, hv, authValue_of_key hkey]
      split <;> simp

/-- The value of the last `auth` field. -/
def lastAuth (fields : List Bytes) : Option Bytes := fields.reverse.findSome? authValue

theorem foldlM_authStep (fields : List Bytes) (auth : Option Bytes) :
    (∃ f ∈ fields, f ≠ [] ∧ '='.toUInt8 ∉ f) ∧ fields.foldlM authStep auth = .err .invalidKeyValue ∨
      (∀ f ∈ fields, f ≠ [] → '='.toUInt8 ∈ f) ∧
        fields.foldlM authStep auth = .ok ((lastAuth fields).or auth) := by
  induction fields generalizing auth with
  | nil => exact .inr ⟨by simp, rfl⟩
  | cons f fields ih =>
    rw [List.foldlM_cons, authStep_eq]
    by_cases hf : f ≠ [] ∧ '='.toUInt8 ∉ f
    · rw [if_pos hf]
      exact .inl ⟨⟨f, List.mem_cons_self, hf⟩, rfl⟩
    · rw [if_neg hf, ok_bind]
      rcases ih ((authValue f).or auth) with ⟨⟨g, hg, hbad⟩, h⟩ | ⟨hall, h⟩
      · exact .inl ⟨⟨g, List.mem_cons_of_mem _ hg, hbad⟩, h⟩
      · refine .inr ⟨fun g hg => ?_, ?_⟩
        · rcases List.mem_cons.1 hg with rfl | hg
          · exact fun hne => by_contra fun hm => hf ⟨hne, hm⟩
          · exact hall g hg
        · -- A value found in the later fields comes before that of `f`, and this before `auth`.
          rw [h]
          congr 1
          simp only [lastAuth, List.reverse_cons, List.findSome?_append]
          cases List.findSome? authValue fields.reverse <;> simp [List.findSome?]
          cases authValue f <;> rfl

theorem lastAuth_eq_some {fields : List Bytes} {v : Bytes} :
    lastAuth fields = some v ↔
      ∃ pre f post, fields = pre ++ f :: post ∧ IsAuth f v ∧ ∀ g ∈ post, ∀ w, ¬IsAuth g w := by
  have hnone : ∀ g, authValue g = none ↔ ∀ w, ¬IsAuth g w := fun g => by
    simp only [Option.eq_none_iff_forall_ne_some, ne_eq, authValue_eq_some]
  simp only [lastAuth, List.findSome?_eq_some_iff, authValue_eq_some, hnone]
  constructor
  · rintro ⟨l, f, m, h, hf, hl⟩
    refine ⟨m.reverse, f, l.reverse, ?_, hf, fun g hg => hl g (List.mem_reverse.1 hg)⟩
    rw [← List.reverse_reverse fields, h]
    simp
  · rintro ⟨pre, f, post, rfl, hf, hpost⟩
    exact ⟨post.reverse, f, pre.reverse, by simp, hf, fun g hg => hpost g (List.mem_reverse.1 hg)⟩

theorem foldlM_authStep_eq_ok {fields : List Bytes} {auth : Option Bytes} :
    fields.foldlM authStep none = .ok auth ↔
      (∀ f ∈ fields, f ≠ [] → '='.toUInt8 ∈ f) ∧ lastAuth fields = auth := by
  rcases foldlM_authStep fields none with ⟨⟨f, hf, hne, hm⟩, h⟩ | ⟨hall, h⟩
  · rw [h]
    exact iff_of_false (by simp) fun h' => hm (h'.1 f hf hne)
  · rw [h, Option.or_none]
    exact ⟨fun h' => ⟨hall, Outcome.ok.inj h'⟩, fun h' => congrArg _ h'.2⟩

@[simp] theorem foldlM_authStep_ne_panic (fields : List Bytes) (auth : Option Bytes) :
    fields.foldlM authStep auth ≠ .panic := by
  rcases foldlM_authStep fields auth with ⟨-, h⟩ | ⟨-, h⟩ <;> simp [h]

/-! ## The token -/

theorem parseBearer_eq_ok {auth : Bytes} {token : String} :
    parseBearer auth = .ok token ↔
      ∃ scheme, auth = scheme ++ utf8 token ∧ eqIgnoreAsciiCase scheme bearer ∧ token ≠ "" := by
  constructor
  · intro h
    obtain ⟨_, hlen, h⟩ := bind_eq_ok.1 h
    have hlen := of_decide_eq_true (ensure_eq_ok.1 hlen)
    rw [slice_of_le (Nat.zero_le _) hlen, ok_bind, List.drop_zero] at h
    obtain ⟨_, hs, h⟩ := bind_eq_ok.1 h
    rw [slice_of_le hlen (Nat.le_refl _), ok_bind, List.take_length] at h
    obtain ⟨t, ht, h⟩ := bind_eq_ok.1 h
    obtain ⟨_, hne, h⟩ := bind_eq_ok.1 h
    cases h
    rw [okOr_eq_ok, fromUtf8_eq_some] at ht
    exact ⟨auth.take bearer.length, by rw [ht, List.take_append_drop], ensure_eq_ok.1 hs,
      of_decide_eq_true (ensure_eq_ok.1 hne)⟩
  · rintro ⟨scheme, rfl, hs, hne⟩
    have hlen : scheme.length = bearer.length := length_eq_of_eqIgnoreAsciiCase hs
    have hle : bearer.length ≤ (scheme ++ utf8 token).length := by
      rw [List.length_append]
      omega
    rw [parseBearer, slice_of_le (Nat.zero_le _) hle, slice_of_le hle (Nat.le_refl _), ← hlen,
      List.take_left, List.take_length, List.drop_left]
    simp [ensure, okOr, hs, hne]

@[simp] theorem parseBearer_ne_panic (auth : Bytes) : parseBearer auth ≠ .panic := by
  refine bind_ne_panic (by simp) fun _ hlen => ?_
  have hlen := of_decide_eq_true (ensure_eq_ok.1 hlen)
  rw [slice_of_le (Nat.zero_le _) hlen, slice_of_le hlen (Nat.le_refl _)]
  exact bind_ne_panic (by simp) fun _ _ => bind_ne_panic (by simp) fun _ _ =>
    bind_ne_panic (by simp) fun _ _ => bind_ne_panic (by simp) fun _ _ =>
      bind_ne_panic (by simp) fun _ _ => by simp

end CrudeOAuth
