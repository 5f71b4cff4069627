import CrudeOAuth.Rust.Bytes

/-!
# SASL names

The names inside the GS2 header of a client response (`core/src/rfc7628.rs`) are
escaped: `=2C` stands for a comma and `=3D` for an equals sign, which frame the
header.

The decoding loop `decodeLoop` works on the bytes of the name and counts its
iterations down: it is given as many as there are bytes. `decodeSaslname_eq` shows
that these are enough, that no index leaves the name, and that the result is the
character-level `unescape` — so that the final UTF-8 check cannot fail.
`unescape_eq_some` says what that is: a text is accepted if every `=` in it starts
an escape, and the escapes are then replaced from left to right.

`unescape_flatMap_encodeChar` is the other direction: what `encodeSaslname` writes
is read back.
-/

namespace CrudeOAuth

open Rust Rust.Outcome

inductive Rfc7628Error
  | invalidUtf8
  | invalidGs2Header
  | invalidSaslName
  | missingAuth
  | invalidKeyValue
  | missingTerminator
  | notBearer
  deriving DecidableEq, Repr

/-- The loop of `decode_saslname` at index `i` with the output `out`, and at most
    `fuel` more iterations. -/
def decodeLoop (bytes : Bytes) : (fuel i : Nat) → (out : Bytes) → Outcome Rfc7628Error Bytes
  | 0, i, out => if i < bytes.length then .panic else .ok out
  | fuel + 1, i, out =>
    if i < bytes.length then do
      let b ← index bytes i
      if b = '='.toUInt8 ∧ range? bytes (i + 1) (i + 3) = some (utf8 "2C") then
        decodeLoop bytes fuel (i + 3) (out ++ [','.toUInt8])
      else if b = '='.toUInt8 ∧ range? bytes (i + 1) (i + 3) = some (utf8 "3D") then
        decodeLoop bytes fuel (i + 3) (out ++ ['='.toUInt8])
      else if b = '='.toUInt8 then
        .err .invalidSaslName
      else
        decodeLoop bytes fuel (i + 1) (out ++ [b])
    else .ok out

def decodeSaslname (input : String) : Outcome Rfc7628Error String := do
  let bytes := utf8 input
  let out ← decodeLoop bytes bytes.length 0 []
  okOr (fromUtf8 out) .invalidUtf8

/-- What a character is pushed as by `encode_saslname`. -/
def encodeChar (ch : Char) : List Char :=
  if ch = ',' then "=2C".toList else if ch = '=' then "=3D".toList else [ch]

def encodeSaslname (input : String) : String := String.ofList (input.toList.flatMap encodeChar)

/-! ## Escapes -/

/-- A text with its escapes replaced, unless some `=` starts none. -/
def unescape : List Char → Option (List Char)
  | [] => some []
  | '=' :: '2' :: 'C' :: l => (unescape l).map (',' :: ·)
  | '=' :: '3' :: 'D' :: l => (unescape l).map ('=' :: ·)
  | '=' :: _ => none
  | c :: l => (unescape l).map (c :: ·)

/-- A text with every `=2C` replaced by a comma and every `=3D` by an equals sign, from
    left to right; what a replacement writes is not read again. -/
def replaceEscapes : List Char → List Char
  | [] => []
  | '=' :: '2' :: 'C' :: l => ',' :: replaceEscapes l
  | '=' :: '3' :: 'D' :: l => '=' :: replaceEscapes l
  | c :: l => c :: replaceEscapes l

/-- Every `=` of the text is immediately followed by `2C` or `3D`. -/
def Escaped (l : List Char) : Prop :=
  ∀ pre post, l = pre ++ '=' :: post → ['2', 'C'] <+: post ∨ ['3', 'D'] <+: post

theorem Escaped.nil : Escaped [] := fun pre _ h => by cases pre <;> cases h

theorem escaped_cons {c : Char} {l : List Char} :
    Escaped (c :: l) ↔ (c = '=' → ['2', 'C'] <+: l ∨ ['3', 'D'] <+: l) ∧ Escaped l := by
  constructor
  · intro h
    refine ⟨?_, fun pre post hl => h (c :: pre) post (by rw [hl]; rfl)⟩
    rintro rfl
    exact h [] l rfl
  · rintro ⟨hc, hl⟩ pre post h
    cases pre with
    | nil =>
      obtain ⟨rfl, rfl⟩ := List.cons.inj h
      exact hc rfl
    | cons p pre =>
      obtain ⟨-, rfl⟩ := List.cons.inj h
      exact hl pre post rfl

theorem replaceEscapes_cons {c : Char} (hc : c ≠ '=') (l : List Char) :
    replaceEscapes (c :: l) = c :: replaceEscapes l :=
  replaceEscapes.eq_4 c l (fun _ heq _ => hc heq) (fun _ heq _ => hc heq)

/-- A text whose equals signs start escapes is made of these and of other characters. -/
theorem Escaped.induction {motive : (l : List Char) → Escaped l → Prop} (nil : motive [] .nil)
    (comma : ∀ l (hl : Escaped l) (h : Escaped ('=' :: '2' :: 'C' :: l)), motive l hl → motive _ h)
    (equals : ∀ l (hl : Escaped l) (h : Escaped ('=' :: '3' :: 'D' :: l)), motive l hl → motive _ h)
    (plain : ∀ c l (hl : Escaped l) (h : Escaped (c :: l)), c ≠ '=' → motive l hl → motive _ h)
    (l : List Char) (h : Escaped l) : motive l h := by
  induction l using replaceEscapes.induct with
  | case1 => exact nil
  | case2 l ih =>
    have hl : Escaped l := (escaped_cons.1 (escaped_cons.1 (escaped_cons.1 h).2).2).2
    exact comma l hl h (ih hl)
  | case3 l ih =>
    have hl : Escaped l := (escaped_cons.1 (escaped_cons.1 (escaped_cons.1 h).2).2).2
    exact equals l hl h (ih hl)
  | case4 c l h2 h3 ih =>
    obtain ⟨hc, hl⟩ := escaped_cons.1 h
    refine plain c l hl h ?_ (ih hl)
    rintro rfl
    rcases hc rfl with ⟨k, rfl⟩ | ⟨k, rfl⟩
    · exact h2 k rfl rfl
    · exact h3 k rfl rfl

/-- What `unescape` accepts, and what it returns. -/
theorem unescape_eq_some {l a : List Char} :
    unescape l = some a ↔ Escaped l ∧ replaceEscapes l = a := by
  induction l using unescape.induct generalizing a with
  | case1 => simp [unescape, replaceEscapes, Escaped.nil]
  | case2 l ih =>
    simp only [unescape, replaceEscapes, Option.map_eq_some_iff, ih, escaped_cons]
    simp
  | case3 l ih =>
    simp only [unescape, replaceEscapes, Option.map_eq_some_iff, ih, escaped_cons]
    simp
  | case4 l h2 h3 =>
    rw [unescape.eq_4 l h2 h3, escaped_cons]
    refine iff_of_false (by simp) fun h => ?_
    rcases h.1.1 rfl with ⟨k, rfl⟩ | ⟨k, rfl⟩
    · exact h2 k rfl
    · exact h3 k rfl
  | case5 c l h2 h3 h4 ih =>
    have hc : c ≠ '=' := fun h => h4 h
    simp only [unescape, replaceEscapes, Option.map_eq_some_iff, ih, escaped_cons]
    simp [hc]

/-- Escaping a text and reading it back gives the text. -/
theorem unescape_flatMap_encodeChar (l : List Char) : unescape (l.flatMap encodeChar) = some l := by
  induction l with
  | nil => rfl
  | cons c l ih =>
    rw [List.flatMap_cons, encodeChar]
    split
    · subst c
      simp [unescape, ih]
    · split
      · subst c
        simp [unescape, ih]
      · rename_i hc
        rw [List.singleton_append, unescape, ih]
        · rfl
        all_goals simp_all

/-! ## The decoding loop -/

variable {bytes : Bytes}

/-- The loop copies bytes other than `=`. -/
theorem decodeLoop_copy {xs rest : Bytes} (hx : '='.toUInt8 ∉ xs) {i : Nat} {out : Bytes}
    (h : bytes.drop i = xs ++ rest) (fuel : Nat) :
    decodeLoop bytes (xs.length + fuel) i out = decodeLoop bytes fuel (i + xs.length) (out ++ xs) := by
  induction xs generalizing i out with
  | nil => simp
  | cons x xs ih =>
    have hne : x ≠ '='.toUInt8 := fun e => hx (e ▸ List.mem_cons_self)
    rw [List.length_cons, Nat.add_right_comm, decodeLoop, if_pos (lt_of_drop_eq_cons h),
      index_of_drop h, ok_bind, if_neg fun e => hne e.1, if_neg fun e => hne e.1, if_neg hne,
      ih (fun e => hx (List.mem_cons_of_mem _ e)) (drop_succ_of_drop_eq_cons h)]
    simp [Nat.add_comm, Nat.add_left_comm]

/-- At an `=`, the two bytes looked at are those of the characters `e` if the text goes
    on with `e`. -/
theorem lookahead {l : List Char} {i : Nat} (h : bytes.drop i = '='.toUInt8 :: utf8Chars l)
    {e : List Char} (he : (utf8Chars e).length = 2) :
    range? bytes (i + 1) (i + 3) = some (utf8Chars e) ↔ e <+: l := by
  rw [range?_eq_some (lt_of_drop_eq_cons h) (by omega),
    drop_succ_of_drop_eq_cons h, utf8Chars_prefix]

/-- One iteration at an `=`. -/
theorem decodeLoop_escape {l : List Char} {i : Nat} {out : Bytes}
    (h : bytes.drop i = '='.toUInt8 :: utf8Chars l) (fuel : Nat) :
    decodeLoop bytes (fuel + 1) i out =
      if ['2', 'C'] <+: l then decodeLoop bytes fuel (i + 3) (out ++ [','.toUInt8])
      else if ['3', 'D'] <+: l then decodeLoop bytes fuel (i + 3) (out ++ ['='.toUInt8])
      else .err .invalidSaslName := by
  have h2 := @lookahead _ _ _ h ['2', 'C'] rfl
  have h3 := @lookahead _ _ _ h ['3', 'D'] rfl
  rw [decodeLoop, if_pos (lt_of_drop_eq_cons h), index_of_drop h, ok_bind]
  simp only [true_and, if_true, ← h2, ← h3]
  rfl

/-- The end of the loop, with the output `out` so far, for what is left unescaped. -/
def loopResult (out : Bytes) : Option (List Char) → Outcome Rfc7628Error Bytes
  | some a => .ok (out ++ utf8Chars a)
  | none => .err .invalidSaslName

theorem loopResult_map_cons (out : Bytes) (c : Char) (o : Option (List Char)) :
    loopResult out (o.map (c :: ·)) = loopResult (out ++ String.utf8EncodeChar c) o := by
  cases o <;> simp [loopResult, utf8Chars_cons]

/-- With as many iterations as there are bytes left, the loop unescapes the text that
    is left. -/
theorem decodeLoop_eq {l : List Char} {i : Nat} {out : Bytes} (h : bytes.drop i = utf8Chars l)
    {fuel : Nat} (hf : (utf8Chars l).length ≤ fuel) :
    decodeLoop bytes fuel i out = loopResult out (unescape l) := by
  -- An escape takes three bytes and one iteration, any other character one for each byte.
  induction l using unescape.induct generalizing i out fuel with
  | case1 =>
    have hi : ¬i < bytes.length := Nat.not_lt.2 (List.drop_eq_nil_iff.1 h)
    cases fuel <;> simp [decodeLoop, unescape, loopResult, hi]
  | case2 l ih =>
    have hd : bytes.drop (i + 3) = utf8Chars l :=
      @drop_add_of_drop_eq_append _ _ (utf8Chars ['=', '2', 'C']) _ _ h
    have hlen : (utf8Chars l).length + 3 ≤ fuel := hf
    obtain ⟨fuel, rfl⟩ := Nat.exists_eq_add_of_le' (show 1 ≤ fuel by omega)
    rw [decodeLoop_escape h, if_pos ⟨l, rfl⟩, ih hd (by omega), unescape, loopResult_map_cons]
    rfl
  | case3 l ih =>
    have hd : bytes.drop (i + 3) = utf8Chars l :=
      @drop_add_of_drop_eq_append _ _ (utf8Chars ['=', '3', 'D']) _ _ h
    have hlen : (utf8Chars l).length + 3 ≤ fuel := hf
    obtain ⟨fuel, rfl⟩ := Nat.exists_eq_add_of_le' (show 1 ≤ fuel by omega)
    rw [decodeLoop_escape h, if_neg (by simp), if_pos ⟨l, rfl⟩, ih hd (by omega), unescape,
      loopResult_map_cons]
    rfl
  | case4 l h2 h3 =>
    have hlen : (utf8Chars l).length + 1 ≤ fuel := hf
    obtain ⟨fuel, rfl⟩ := Nat.exists_eq_add_of_le' (show 1 ≤ fuel by omega)
    rw [decodeLoop_escape h, if_neg fun ⟨k, e⟩ => h2 k e.symm, if_neg fun ⟨k, e⟩ => h3 k e.symm,
      unescape.eq_4 l h2 h3]
    rfl
  | case5 c l h2 h3 h4 ih =>
    -- No byte of `c` is an `=`, so the loop copies them all.
    have hc : '='.toUInt8 ∉ String.utf8EncodeChar c := fun hm =>
      h4 ((mem_utf8EncodeChar_ascii (by decide)).1 hm)
    rw [utf8Chars_cons] at h hf
    rw [List.length_append] at hf
    obtain ⟨fuel, rfl⟩ := Nat.exists_eq_add_of_le (show (String.utf8EncodeChar c).length ≤ fuel by omega)
    rw [decodeLoop_copy hc h, ih (drop_add_of_drop_eq_append h) (by omega),
      unescape.eq_5 c l h2 h3 h4, loopResult_map_cons]

/-- Decoding a name unescapes it: neither a panic nor an invalid UTF-8 error occurs. -/
theorem decodeSaslname_eq (input : String) :
    decodeSaslname input =
      match unescape input.toList with
      | some a => .ok (String.ofList a)
      | none => .err .invalidSaslName := by
  have h : (utf8 input).drop 0 = utf8Chars input.toList := utf8_eq input
  rw [decodeSaslname, decodeLoop_eq h (utf8_eq input ▸ Nat.le_refl _)]
  cases unescape input.toList with
  | none => rfl
  | some a => simp [loopResult, ← utf8_ofList, okOr]

@[simp] theorem decodeSaslname_eq_ok {input a : String} :
    decodeSaslname input = .ok a ↔ Escaped input.toList ∧ replaceEscapes input.toList = a.toList := by
  rw [decodeSaslname_eq, ← unescape_eq_some]
  cases unescape input.toList with
  | none => simp
  | some b => simp [← String.toList_inj]

@[simp] theorem decodeSaslname_ne_panic (input : String) : decodeSaslname input ≠ .panic := by
  rw [decodeSaslname_eq]
  split <;> simp

/-- What is written as a name is read back. -/
theorem decodeSaslname_encodeSaslname (a : String) : decodeSaslname (encodeSaslname a) = .ok a := by
  rw [decodeSaslname_eq, encodeSaslname, String.toList_ofList, unescape_flatMap_encodeChar]
  simp

/-! ## Replacing at once -/

/-- What follows an equals sign, with the escape that it starts replaced. -/
def replaceEscape (piece : List Char) : List Char :=
  (if ['2', 'C'] <+: piece then ',' else '=') :: piece.drop 2

/-- A text with its escapes replaced where its equals signs are, all at once. -/
def replaceAtOnce (l : List Char) : List Char :=
  let pieces := l.splitOn '='
  pieces.head?.getD [] ++ pieces.tail.flatMap replaceEscape

theorem replaceAtOnce_cons {c : Char} (hc : c ≠ '=') (l : List Char) :
    replaceAtOnce (c :: l) = c :: replaceAtOnce l := by
  obtain ⟨piece, pieces, hpieces⟩ := List.exists_cons_of_ne_nil (List.splitOn_ne_nil '=' l)
  rw [replaceAtOnce, replaceAtOnce, List.splitOn_cons_eq_if_modifyHead, if_neg (by simpa using hc), hpieces]
  rfl

/-- An escape is replaced on its own. -/
theorem replaceAtOnce_escape {c d : Char} (hc : c ≠ '=') (hd : d ≠ '=') (l : List Char) :
    replaceAtOnce ('=' :: c :: d :: l) = (if c = '2' ∧ d = 'C' then ',' else '=') :: replaceAtOnce l := by
  obtain ⟨piece, pieces, hpieces⟩ := List.exists_cons_of_ne_nil (List.splitOn_ne_nil '=' l)
  have hpiece : ['2', 'C'] <+: c :: d :: piece ↔ c = '2' ∧ d = 'C' := by
    simp [eq_comm]
  rw [replaceAtOnce, replaceAtOnce, List.splitOn_cons_eq_if_modifyHead, if_pos (by simp),
    List.splitOn_cons_eq_if_modifyHead, if_neg (by simpa using hc), List.splitOn_cons_eq_if_modifyHead,
    if_neg (by simpa using hd), hpieces]
  simp [replaceEscape, hpiece]

/-- From left to right, the same escapes are replaced as at once. -/
theorem replaceEscapes_eq_replaceAtOnce {l : List Char} (h : Escaped l) :
    replaceEscapes l = replaceAtOnce l := by
  induction l, h using Escaped.induction with
  | nil => rfl
  | comma l _ _ ih | equals l _ _ ih =>
    rw [replaceEscapes, replaceAtOnce_escape (by decide) (by decide), ih]
    rfl
  | plain c l _ _ hc ih => rw [replaceEscapes_cons hc, replaceAtOnce_cons hc, ih]

/-- A name is refused if an equals sign in it starts no escape, and otherwise its escapes are
    replaced at once. What is written is always UTF-8. -/
theorem decodeSaslname_exact (s : String) :
    (decodeSaslname s = .err .invalidSaslName ↔ ¬Escaped s.toList) ∧
      (Escaped s.toList → decodeSaslname s = .ok (String.ofList (replaceAtOnce s.toList))) ∧
      decodeSaslname s ≠ .err .invalidUtf8 := by
  have hok : Escaped s.toList → decodeSaslname s = .ok (String.ofList (replaceAtOnce s.toList)) := by
    intro h
    rw [decodeSaslname_eq_ok, String.toList_ofList]
    exact ⟨h, replaceEscapes_eq_replaceAtOnce h⟩
  have herr : ¬Escaped s.toList → decodeSaslname s = .err .invalidSaslName := by
    intro h
    rw [decodeSaslname_eq]
    cases hs : unescape s.toList with
    | none => rfl
    | some a => exact absurd (unescape_eq_some.1 hs).1 h
  refine ⟨⟨fun h hescaped => ?_, herr⟩, hok, fun h => ?_⟩
  · rw [hok hescaped] at h
    cases h
  · by_cases hescaped : Escaped s.toList
    · rw [hok hescaped] at h
      cases h
    · rw [herr hescaped] at h
      cases h

example : decodeSaslname "=3D2C" = .ok "=2C" := by decide

end CrudeOAuth
