import CrudeOAuth.Core.Rfc7628.RoundTrip

/-!
# One encoding for each name

A name should have one encoding, the one that `encodeSaslname` writes. The decoder lets a
bare comma pass, although it refuses a bare equals sign: the header of an accepted message
is the encoding of its name exactly if the commas of the frame are the only ones in it
(`gs2Header_eq_iff`).
-/

namespace CrudeOAuth

open Rust Rust.Outcome

/-! ## Names -/

theorem comma_notMem_flatMap_encodeChar (l : List Char) : ',' ∉ l.flatMap encodeChar := by
  rw [List.mem_flatMap]
  rintro ⟨c, -, hc⟩
  unfold encodeChar at hc
  split at hc
  · exact absurd hc (by decide)
  · split at hc
    · exact absurd hc (by decide)
    · rename_i hne _
      exact hne (List.mem_singleton.1 hc).symm

/-- Escaping undoes the replacement of escapes exactly in texts without commas. -/
theorem flatMap_encodeChar_replaceEscapes {l : List Char} (h : Escaped l) :
    (replaceEscapes l).flatMap encodeChar = l ↔ ',' ∉ l := by
  refine ⟨fun heq => heq ▸ comma_notMem_flatMap_encodeChar _, fun hcomma => ?_⟩
  induction l, h using Escaped.induction with
  | nil => rfl
  | comma l _ _ ih | equals l _ _ ih =>
    rw [replaceEscapes, List.flatMap_cons, ih (by simp_all)]
    rfl
  | plain c l _ _ hc ih =>
    -- The character is neither a comma nor an equals sign, so it stays what it is.
    have hne : c ≠ ',' := fun e => hcomma (e ▸ List.mem_cons_self)
    rw [replaceEscapes_cons hc, List.flatMap_cons, encodeChar, if_neg hne, if_neg hc,
      ih fun hm => hcomma (List.mem_cons_of_mem _ hm)]
    rfl

/-! ## Headers -/

/-- The bytes before the first separator. -/
def gs2Header (input : Bytes) : Bytes := input.takeWhile (· ≠ kvsep)

theorem gs2Header_append {gs2 rest : Bytes} (h : kvsep ∉ gs2) : gs2Header (gs2 ++ kvsep :: rest) = gs2 := by
  have hall : ∀ b ∈ gs2, decide (b ≠ kvsep) = true := fun b hb =>
    decide_eq_true fun e => h (e ▸ hb)
  rw [gs2Header, List.takeWhile_append_of_pos hall]
  simp

/-- The header with the encoding of a name. -/
def encodedHeader (a : String) : Bytes := utf8 "n,a=" ++ utf8 (encodeSaslname a) ++ utf8 ","

theorem count_comma_header {E : String} :
    (utf8 "n,a=" ++ utf8 E ++ utf8 ",").count ','.toUInt8 = 2 ↔ ',' ∉ E.toList := by
  have hopen : (utf8 "n,a=").count ','.toUInt8 = 1 := by decide
  have hclose : (utf8 ",").count ','.toUInt8 = 1 := by decide
  rw [List.count_append, List.count_append, hopen, hclose, ← mem_utf8_ascii (by decide),
    ← List.count_eq_zero]
  omega

theorem IsGs2.eq_encodedHeader_iff {gs2 : Bytes} {a : String} (h : IsGs2 gs2 (some a)) :
    gs2 = encodedHeader a ↔ gs2.count ','.toUInt8 = 2 := by
  rcases h with ⟨-, h⟩ | ⟨E, rfl, hescaped, h⟩
  · cases h
  · cases h
    rw [count_comma_header, ← flatMap_encodeChar_replaceEscapes hescaped, encodedHeader,
      List.append_cancel_right_eq, List.append_cancel_left_eq, encodeSaslname, String.toList_ofList]
    refine ⟨fun h => ?_, fun h => by rw [h, String.ofList_toList]⟩
    conv_rhs => rw [utf8_injective h, String.toList_ofList]

/-- The header of an accepted message with a name is the encoding of the name exactly if it
    contains two commas, those of its frame; and headers of this kind are the same where
    the names are. -/
theorem gs2Header_eq_iff {input : Bytes} {r : ClientResponse} (hparse : parseClientResponse input = .ok r)
    {a : String} (ha : r.authzid = some a) :
    (gs2Header input = encodedHeader a ↔ (gs2Header input).count ','.toUInt8 = 2) ∧
      ∀ input' r', parseClientResponse input' = .ok r' → r'.authzid = some a →
        (gs2Header input).count ','.toUInt8 = 2 → (gs2Header input').count ','.toUInt8 = 2 →
          gs2Header input = gs2Header input' := by
  have hiff : ∀ {input r}, parseClientResponse input = .ok r → r.authzid = some a →
      (gs2Header input = encodedHeader a ↔ (gs2Header input).count ','.toUInt8 = 2) := by
    intro input r hparse ha
    obtain ⟨-, gs2, body, rfl, hsep, hheader, -⟩ := parseClientResponse_eq_ok.1 hparse
    rw [ha] at hheader
    rw [gs2Header_append hsep]
    exact hheader.eq_encodedHeader_iff
  exact ⟨hiff hparse ha, fun input' r' hparse' ha' h h' =>
    ((hiff hparse ha).2 h).trans ((hiff hparse' ha').2 h').symm⟩

/-- A name with both characters that are escaped. -/
theorem gs2Header_eq_iff_escapes :
    gs2Header (buildClientResponse (some "a,b=c") "t.o.k") = encodedHeader "a,b=c" := by
  have hparse : parseClientResponse (buildClientResponse (some "a,b=c") "t.o.k") =
      .ok { authzid := some "a,b=c", token := "t.o.k" } := by decide +kernel
  exact (gs2Header_eq_iff hparse rfl).1.2 (by decide +kernel)

/-- A name with a bare comma is accepted. -/
theorem gs2Header_counterexample :
    ¬∀ (input : Bytes) (r : ClientResponse) (a : String), parseClientResponse input = .ok r →
      r.authzid = some a → gs2Header input = encodedHeader a := by
  intro h
  have hparse : parseClientResponse (utf8 "n,a=a,b,\x01auth=Bearer t.o.k\x01\x01") =
      .ok { authzid := some "a,b", token := "t.o.k" } := by decide +kernel
  exact absurd (h _ _ _ hparse rfl) (by decide +kernel)

end CrudeOAuth
