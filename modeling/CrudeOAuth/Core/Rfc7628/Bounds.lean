import CrudeOAuth.Core.Rfc7628.Grammar

/-!
# Bounds of the parser

No input takes the parser out of its bounds (`parser_inBounds`). What is cut out of a
message lies in it because of how its separators, its frame and its terminator lie to each
other (`InBounds`), so that no subtraction, slice or index panics; and the loop over a name
goes on by at least one byte in each iteration (`Iterates`), and never past the end.
-/

namespace CrudeOAuth

open Rust Rust.Outcome

/-! ## The message -/

/-- The bounds of what `parseClientResponse` cuts out of a message. -/
structure InBounds (input : Bytes) : Prop where
  /-- `input[..first_sep]` -/
  gs2 : ∀ firstSep, position kvsep input = some firstSep → firstSep ≤ input.length
  /-- `gs2[4..gs2.len() - 1]` -/
  name : ∀ gs2, gs2 <+: input → utf8 "n,a=" <+: gs2 → utf8 "," <:+ gs2 →
    1 ≤ gs2.length ∧ 4 ≤ gs2.length - 1 ∧ gs2.length - 1 ≤ gs2.length
  /-- `input[first_sep + 1..input.len() - 1]` -/
  fields : ∀ firstSep, position kvsep input = some firstSep → [kvsep, kvsep] <:+ input →
    1 ≤ input.length ∧ firstSep + 1 ≤ input.length - 1 ∧ input.length - 1 ≤ input.length
  /-- `field[..eq]` and `field[eq + 1..]` -/
  field : ∀ field, field <:+: input → ∀ eq, position '='.toUInt8 field = some eq →
    eq ≤ field.length ∧ eq + 1 ≤ field.length
  /-- `auth[..BEARER.len()]` and `auth[BEARER.len()..]` -/
  scheme : ∀ auth, auth <:+: input → ¬auth.length < bearer.length → bearer.length ≤ auth.length

theorem position_lt {b : UInt8} {bytes : Bytes} {i : Nat} (h : position b bytes = some i) : i < bytes.length := by
  obtain ⟨before, after, rfl, -, rfl⟩ := position_eq_some.1 h
  simp

theorem inBounds (input : Bytes) : InBounds input where
  gs2 firstSep h := Nat.le_of_lt (position_lt h)
  name gs2 _ hbegin hend := by
    -- The frame has five bytes, as it does not share its comma.
    obtain ⟨name, rfl⟩ := exists_name hbegin hend
    have h4 : (utf8 "n,a=").length = 4 := rfl
    have h1 : (utf8 ",").length = 1 := rfl
    simp only [List.length_append]
    omega
  fields firstSep h hend := by
    obtain ⟨header, rest, rfl, hheader, rfl⟩ := position_eq_some.1 h
    obtain ⟨body, rfl⟩ := exists_body hheader hend
    simp only [List.length_append, List.length_cons, List.length_nil]
    omega
  field field _ eq h := ⟨Nat.le_of_lt (position_lt h), position_lt h⟩
  scheme auth _ h := Nat.not_lt.1 h

/-! ## The loop over a name -/

/-- The body of the decoding loop: the next index, and the output. -/
def decodeStep (bytes : Bytes) (i : Nat) (out : Bytes) : Outcome Rfc7628Error (Nat × Bytes) := do
  let b ← index bytes i
  if b = '='.toUInt8 ∧ range? bytes (i + 1) (i + 3) = some (utf8 "2C") then
    .ok (i + 3, out ++ [','.toUInt8])
  else if b = '='.toUInt8 ∧ range? bytes (i + 1) (i + 3) = some (utf8 "3D") then
    .ok (i + 3, out ++ ['='.toUInt8])
  else if b = '='.toUInt8 then
    .err .invalidSaslName
  else
    .ok (i + 1, out ++ [b])

variable {bytes out out' : Bytes} {i i' n : Nat}

/-- The loop runs its body until the index is at the end. -/
theorem decodeLoop_succ (fuel : Nat) : decodeLoop bytes (fuel + 1) i out =
    if i < bytes.length then decodeStep bytes i out >>= fun (i', out') => decodeLoop bytes fuel i' out'
    else .ok out := by
  rw [decodeLoop]
  split
  · rw [decodeStep]
    cases (index bytes i : Outcome Rfc7628Error UInt8) with
    | ok b =>
      simp only [ok_bind]
      split
      · rfl
      · split
        · rfl
        · split <;> rfl
    | err e => rfl
    | panic => rfl
  · rfl

/-- After some iterations the loop is at an index, with an output. -/
inductive Iterates (bytes : Bytes) : Nat → Nat → Bytes → Prop
  | start : Iterates bytes 0 0 []
  | next {n i i' : Nat} {out out' : Bytes} (h : Iterates bytes n i out) (hi : i < bytes.length)
    (hstep : decodeStep bytes i out = .ok (i', out')) : Iterates bytes (n + 1) i' out'

theorem decodeStep_ne_panic (hi : i < bytes.length) : decodeStep bytes i out ≠ .panic := by
  refine bind_ne_panic (by simp [index, List.getElem?_eq_getElem hi]) fun b _ => ?_
  split
  · simp
  · split
    · simp
    · split <;> simp

/-- An iteration goes on, and not past the end. -/
theorem lt_of_decodeStep (hi : i < bytes.length) (h : decodeStep bytes i out = .ok (i', out')) :
    i < i' ∧ i' ≤ bytes.length := by
  obtain ⟨b, -, h⟩ := bind_eq_ok.1 h
  have hrange : ∀ escape, range? bytes (i + 1) (i + 3) = some escape → i + 3 ≤ bytes.length := by
    intro escape hrange
    unfold range? at hrange
    split at hrange
    · rename_i hbounds
      exact hbounds.2
    · cases hrange
  split at h
  · rename_i hescape
    obtain ⟨rfl, -⟩ := Prod.mk.inj (Outcome.ok.inj h)
    exact ⟨by omega, hrange _ hescape.2⟩
  · split at h
    · rename_i hescape
      obtain ⟨rfl, -⟩ := Prod.mk.inj (Outcome.ok.inj h)
      exact ⟨by omega, hrange _ hescape.2⟩
    · split at h
      · cases h
      · obtain ⟨rfl, -⟩ := Prod.mk.inj (Outcome.ok.inj h)
        omega

/-- Each iteration takes at least one byte. -/
theorem Iterates.le (h : Iterates bytes n i out) : n ≤ i ∧ i ≤ bytes.length := by
  induction h with
  | start => exact ⟨Nat.le_refl _, Nat.zero_le _⟩
  | next _ hi hstep ih =>
    obtain ⟨hlt, hle⟩ := lt_of_decodeStep hi hstep
    exact ⟨by omega, hle⟩

/-- With as many iterations left as there are bytes, the loop comes to its end. -/
theorem decodeLoop_ne_panic {fuel : Nat} (hfuel : bytes.length ≤ i + fuel) :
    decodeLoop bytes fuel i out ≠ .panic := by
  induction fuel generalizing i out with
  | zero =>
    rw [decodeLoop, if_neg (by omega)]
    simp
  | succ fuel ih =>
    rw [decodeLoop_succ]
    split
    · rename_i hi
      refine bind_ne_panic (decodeStep_ne_panic hi) fun next hstep => ih ?_
      have hlt := (lt_of_decodeStep hi hstep).1
      omega
    · simp

/-- No message and no name takes the parser out of bounds, and its loop over a name ends after
    at most one iteration for each byte. -/
theorem parser_inBounds :
    (∀ input, InBounds input ∧ parseClientResponse input ≠ .panic) ∧
      (∀ name, decodeSaslname name ≠ .panic) ∧
      ∀ bytes n i out, Iterates bytes n i out → n ≤ bytes.length ∧ i ≤ bytes.length ∧
        (i < bytes.length → decodeStep bytes i out ≠ .panic) ∧
        decodeLoop bytes (bytes.length - n) i out ≠ .panic := by
  refine ⟨fun input => ⟨inBounds input, parseClientResponse_ne_panic input⟩, decodeSaslname_ne_panic,
    fun bytes n i out h => ?_⟩
  obtain ⟨hn, hi⟩ := h.le
  exact ⟨Nat.le_trans hn hi, hi, decodeStep_ne_panic, decodeLoop_ne_panic (by omega)⟩

end CrudeOAuth
