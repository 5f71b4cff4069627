import CrudeOAuth.Rust.Outcome

/-!
# Byte strings

Byte strings (`Bytes`), the UTF-8 bytes of a string (`utf8`, `s.as_bytes()`) and
the checked reading of bytes as a string (`fromUtf8`, `str::from_utf8`). The two
are inverse to each other (`fromUtf8_eq_some`), so a string and its valid bytes
are never told apart.

ASCII bytes are what the formats of this development are framed by. In UTF-8 a
byte below `0x80` is always a character of its own (`mem_utf8_ascii`): searching
bytes for an ASCII byte and searching characters for it is the same.

Bytes that are not UTF-8 are read lossily by `fromUtf8Lossy`, which loses nothing of
those that are (`fromUtf8Lossy_utf8`).

A `CString` is a byte string without the byte `0`, as `CString::new` checks and
`CStr::from_ptr` yields.
-/

namespace Rust

abbrev Bytes := List UInt8

/-! ## Searching and comparing -/

section Search

variable {α : Type} [DecidableEq α]

/-- `xs.iter().position(|&x| x == a)` -/
def position (a : α) (xs : List α) : Option Nat := xs.idxOf? a

/-- The position of `a` is where the part of the list without `a` ends. -/
theorem position_eq_some {a : α} {xs : List α} {i : Nat} :
    position a xs = some i ↔ ∃ ys zs, xs = ys ++ a :: zs ∧ a ∉ ys ∧ ys.length = i := by
  induction xs generalizing i with
  | nil => simp [position]
  | cons x xs ih =>
    unfold position at ih ⊢
    rw [List.idxOf?_cons]
    by_cases hx : x = a
    · subst hx
      simp only [beq_self_eq_true, if_true, Option.some.injEq]
      constructor
      · rintro rfl
        exact ⟨[], xs, rfl, List.not_mem_nil, rfl⟩
      · rintro ⟨ys, zs, h, hys, rfl⟩
        cases ys with
        | nil => rfl
        | cons y ys => exact absurd (List.cons.inj h).1 fun e => hys (e ▸ List.mem_cons_self)
    · simp only [beq_iff_eq, hx, if_false, Option.map_eq_some_iff]
      constructor
      · rintro ⟨j, hj, rfl⟩
        obtain ⟨ys, zs, rfl, hys, rfl⟩ := ih.1 hj
        exact ⟨x :: ys, zs, rfl, by simp [hys, Ne.symm hx], rfl⟩
      · rintro ⟨ys, zs, h, hys, rfl⟩
        cases ys with
        | nil => exact absurd (List.cons.inj h).1 hx
        | cons y ys =>
          obtain ⟨-, rfl⟩ := List.cons.inj h
          exact ⟨_, ih.2 ⟨ys, zs, rfl, fun hm => hys (List.mem_cons_of_mem _ hm), rfl⟩, rfl⟩

theorem position_append {a : α} {ys zs : List α} (h : a ∉ ys) :
    position a (ys ++ a :: zs) = some ys.length :=
  position_eq_some.2 ⟨ys, zs, rfl, h, rfl⟩

theorem position_eq_none {a : α} {xs : List α} : position a xs = none ↔ a ∉ xs := by
  rw [position, List.idxOf?_eq_none_iff]

/-- A list is cut in one way only at its first `a`. -/
theorem split_unique {a : α} {ys zs ys' zs' : List α} (h : ys ++ a :: zs = ys' ++ a :: zs')
    (hys : a ∉ ys) (hys' : a ∉ ys') : ys = ys' ∧ zs = zs' := by
  have hlen : ys.length = ys'.length := Option.some.inj <| by
    rw [← position_append hys, h, position_append hys']
  obtain ⟨hl, hr⟩ := List.append_inj h hlen
  exact ⟨hl, (List.cons.inj hr).2⟩

/-- The parts a list is split into are free of the separator. -/
theorem not_mem_of_mem_splitOn {a : α} {xs ys : List α} (h : ys ∈ xs.splitOn a) : a ∉ ys := by
  induction xs generalizing ys with
  | nil => simp_all
  | cons x xs ih =>
    rw [List.splitOn_cons_eq_if_modifyHead] at h
    split at h
    · rcases List.mem_cons.1 h with rfl | h
      · exact List.not_mem_nil
      · exact ih h
    · rename_i hx
      obtain ⟨p, ps, hp⟩ := List.exists_cons_of_ne_nil (List.splitOn_ne_nil a xs)
      rw [hp, List.modifyHead_cons] at h
      rcases List.mem_cons.1 h with rfl | h
      · have hmem : p ∈ xs.splitOn a := hp ▸ List.mem_cons_self
        rw [List.mem_cons, not_or]
        exact ⟨fun e => hx (by simp [e]), ih hmem⟩
      · exact ih (hp ▸ List.mem_cons_of_mem _ h)

end Search

/-- `b.to_ascii_lowercase()` of a byte. -/
def asciiLower (b : UInt8) : UInt8 :=
  if 'A'.toUInt8 ≤ b ∧ b ≤ 'Z'.toUInt8 then b + 32 else b

/-- `a.eq_ignore_ascii_case(b)` of byte strings. -/
def eqIgnoreAsciiCase (a b : Bytes) : Bool := a.map asciiLower == b.map asciiLower

theorem length_eq_of_eqIgnoreAsciiCase {a b : Bytes} (h : eqIgnoreAsciiCase a b = true) :
    a.length = b.length := by
  have := congrArg List.length (beq_iff_eq.1 h)
  simpa using this

@[simp] theorem eqIgnoreAsciiCase_self (a : Bytes) : eqIgnoreAsciiCase a a = true :=
  beq_self_eq_true _

/-! ## UTF-8 -/

/-- The bytes of a string: `s.as_bytes()`. -/
def utf8 (s : String) : Bytes := s.toByteArray.data.toList

/-- The string with the given bytes, if they are UTF-8: `str::from_utf8(b).ok()`. -/
def fromUtf8 (b : Bytes) : Option String := String.fromUTF8? ⟨b.toArray⟩

theorem fromUtf8_eq_some {b : Bytes} {s : String} : fromUtf8 b = some s ↔ utf8 s = b := by
  unfold fromUtf8 String.fromUTF8?
  constructor
  · intro h
    split at h
    · cases h
      rfl
    · cases h
  · rintro rfl
    exact dif_pos s.isValidUTF8

@[simp] theorem fromUtf8_utf8 (s : String) : fromUtf8 (utf8 s) = some s :=
  fromUtf8_eq_some.2 rfl

theorem utf8_injective : Function.Injective utf8 := fun s t h =>
  Option.some.inj (by rw [← fromUtf8_utf8, h, fromUtf8_utf8])

/-- The bytes of a list of characters. -/
def utf8Chars (l : List Char) : Bytes := l.flatMap String.utf8EncodeChar

@[simp] theorem utf8Chars_nil : utf8Chars [] = [] := rfl

theorem utf8Chars_cons (c : Char) (l : List Char) :
    utf8Chars (c :: l) = String.utf8EncodeChar c ++ utf8Chars l := rfl

@[simp] theorem utf8Chars_append (l m : List Char) :
    utf8Chars (l ++ m) = utf8Chars l ++ utf8Chars m :=
  List.flatMap_append

/-- The bytes of a string are those of its characters, one after the other. -/
theorem utf8_eq (s : String) : utf8 s = utf8Chars s.toList := by
  rw [utf8, ← String.utf8Encode_toList, List.utf8Encode, List.toList_data_toByteArray]
  rfl

theorem utf8_ofList (l : List Char) : utf8 (String.ofList l) = utf8Chars l := by
  rw [utf8_eq, String.toList_ofList]

@[simp] theorem utf8_append (s t : String) : utf8 (s ++ t) = utf8 s ++ utf8 t := by
  simp [utf8_eq]

@[simp] theorem utf8_empty : utf8 "" = [] := rfl

@[simp] theorem utf8_eq_nil {s : String} : utf8 s = [] ↔ s = "" :=
  ⟨fun h => utf8_injective h, fun h => h ▸ rfl⟩

/-- UTF-8 is prefix-free: the bytes of some characters start those of a text
    only where the text starts with these characters. -/
theorem utf8Chars_prefix {l m : List Char} : utf8Chars l <+: utf8Chars m ↔ l <+: m := by
  constructor
  · rintro ⟨b, hb⟩
    refine List.isPrefix_of_utf8Encode_append_eq_utf8Encode b.toByteArray ?_
    simp only [List.utf8Encode, ← List.toByteArray_append]
    exact congrArg _ hb
  · rintro ⟨k, rfl⟩
    exact ⟨utf8Chars k, (utf8Chars_append l k).symm⟩

/-! ## ASCII -/

theorem utf8EncodeChar_ascii {c : Char} (h : c.toNat < 128) :
    String.utf8EncodeChar c = [c.toUInt8] := by
  have h' : c.val.toNat ≤ 127 := Nat.le_of_lt_succ h
  simp only [String.utf8EncodeChar, if_pos h']
  rfl

/-- The bytes of a character beyond ASCII are beyond ASCII. -/
theorem le_of_mem_utf8EncodeChar {c : Char} (h : 128 ≤ c.toNat) {b : UInt8}
    (hb : b ∈ String.utf8EncodeChar c) : 128 ≤ b.toNat := by
  have h' : ¬c.val.toNat ≤ 127 := Nat.not_le.2 h
  simp only [String.utf8EncodeChar, if_neg h'] at hb
  split at hb
  · simp only [List.mem_cons, List.not_mem_nil, or_false] at hb
    rcases hb with rfl | rfl <;> simp <;> omega
  · split at hb <;> simp only [List.mem_cons, List.not_mem_nil, or_false] at hb
    · rcases hb with rfl | rfl | rfl <;> simp <;> omega
    · rcases hb with rfl | rfl | rfl | rfl <;> simp <;> omega

theorem toNat_toUInt8 {a : Char} (ha : a.toNat < 128) : a.toUInt8.toNat = a.toNat := by
  show a.val.toUInt8.toNat = a.val.toNat
  rw [UInt32.toNat_toUInt8]
  exact Nat.mod_eq_of_lt (Nat.lt_trans ha (by omega))

/-- In UTF-8 the byte of an ASCII character stands for that character only. -/
theorem mem_utf8EncodeChar_ascii {a c : Char} (ha : a.toNat < 128) :
    a.toUInt8 ∈ String.utf8EncodeChar c ↔ c = a := by
  constructor
  · intro h
    by_cases hc : c.toNat < 128
    · rw [utf8EncodeChar_ascii hc, List.mem_singleton] at h
      have h' := congrArg UInt8.toNat h
      rw [toNat_toUInt8 ha, toNat_toUInt8 hc] at h'
      rw [← Char.ofNat_toNat c, ← h', Char.ofNat_toNat]
    · have := le_of_mem_utf8EncodeChar (Nat.not_lt.1 hc) h
      rw [toNat_toUInt8 ha] at this
      omega
  · rintro rfl
    rw [utf8EncodeChar_ascii ha]
    exact List.mem_singleton_self _

/-- Searching the bytes of a string for an ASCII byte is searching its
    characters. -/
theorem mem_utf8_ascii {s : String} {a : Char} (ha : a.toNat < 128) :
    a.toUInt8 ∈ utf8 s ↔ a ∈ s.toList := by
  simp only [utf8_eq, utf8Chars, List.mem_flatMap, mem_utf8EncodeChar_ascii ha]
  exact ⟨fun ⟨_, hc, h⟩ => h ▸ hc, fun h => ⟨_, h, rfl⟩⟩

/-! ## Lossy reading -/

/-- `b & 192 == 128` -/
def isContinuation (b : UInt8) : Bool := b &&& 192 == 128

/-- The second byte may follow the first in the encoding of a character of three or four
    bytes. -/
def secondAllowed (first second : UInt8) : Bool :=
  if first == 0xe0 then 0xa0 ≤ second && second ≤ 0xbf
  else if first == 0xed then 0x80 ≤ second && second ≤ 0x9f
  else if first == 0xf0 then 0x90 ≤ second && second ≤ 0xbf
  else if first == 0xf4 then 0x80 ≤ second && second ≤ 0x8f
  else 0xe1 ≤ first && first ≤ 0xf3 && isContinuation second

/-- How many bytes are replaced together where no character can be decoded: those that
    start the encoding of a character, and at least one. -/
def invalidLength : Bytes → Nat
  | b :: c :: d :: _ =>
    if 0xe0 ≤ b && b ≤ 0xf4 && secondAllowed b c then
      if 0xf0 ≤ b && isContinuation d then 3 else 2
    else 1
  | [b, c] => if 0xe0 ≤ b && b ≤ 0xf4 && secondAllowed b c then 2 else 1
  | _ => 1

/-- The characters decoded from some bytes, in at most `fuel` steps. -/
def lossyLoop : (fuel : Nat) → Bytes → List Char
  | 0, _ => []
  | fuel + 1, b =>
    if b = [] then []
    else match b.toByteArray.utf8DecodeChar? 0 with
      | some c => c :: lossyLoop fuel (b.drop c.utf8Size)
      | none => '\ufffd' :: lossyLoop fuel (b.drop (invalidLength b))

/-- `String::from_utf8_lossy(b)` -/
def fromUtf8Lossy (b : Bytes) : String := String.ofList (lossyLoop b.length b)

theorem lossyLoop_utf8Chars {l : List Char} {fuel : Nat} (h : (utf8Chars l).length ≤ fuel) :
    lossyLoop fuel (utf8Chars l) = l := by
  induction l generalizing fuel with
  | nil => cases fuel <;> simp [lossyLoop]
  | cons c l ih =>
    have hsize : (String.utf8EncodeChar c).length = c.utf8Size := String.length_utf8EncodeChar c
    have hpos := c.utf8Size_pos
    rw [utf8Chars_cons, List.length_append, hsize] at h
    obtain ⟨fuel, rfl⟩ := Nat.exists_eq_add_of_le' (show 1 ≤ fuel by omega)
    have hne : utf8Chars (c :: l) ≠ [] := fun e => by
      have := congrArg List.length e
      rw [utf8Chars_cons, List.length_append, hsize, List.length_nil] at this
      omega
    -- A character is decoded from its own bytes, whatever follows them.
    have hdecode : (utf8Chars (c :: l)).toByteArray.utf8DecodeChar? 0 = some c := by
      rw [utf8Chars_cons, List.toByteArray_append]
      exact ByteArray.utf8DecodeChar?_utf8EncodeChar_append
    rw [lossyLoop, if_neg hne, hdecode]
    simp only [utf8Chars_cons]
    rw [← hsize, List.drop_left, ih (by omega)]

/-- Bytes that are UTF-8 are read as they are. -/
theorem fromUtf8Lossy_utf8 (s : String) : fromUtf8Lossy (utf8 s) = s := by
  rw [fromUtf8Lossy, utf8_eq, lossyLoop_utf8Chars (Nat.le_refl _), String.ofList_toList]

example : fromUtf8Lossy [0x61, 0xf0, 0x9f, 0x98, 0xe2, 0x28, 0xff] = "a\ufffd\ufffd(\ufffd" := by decide +kernel

/-! ## C strings -/

/-- `CString` and `CStr`, without the terminating NUL. -/
structure CString where
  bytes : Bytes
  nul_notMem : 0 ∉ bytes
  deriving DecidableEq, Repr

/-- `CString::new(b).ok()` -/
def CString.new (b : Bytes) : Option CString := if h : 0 ∉ b then some ⟨b, h⟩ else none

/-- `CStr::from_ptr(p)`, of a pointer to the bytes `memory`: the bytes up to the first NUL. -/
def CString.ofMemory (memory : Bytes) : CString where
  bytes := memory.takeWhile (· ≠ 0)
  nul_notMem h := by simpa using List.all_eq_true.1 List.all_takeWhile _ h

theorem CString.new_eq_some {b : Bytes} {c : CString} : CString.new b = some c ↔ c.bytes = b := by
  unfold CString.new
  constructor
  · intro h
    split at h
    · cases h
      rfl
    · cases h
  · rintro rfl
    exact dif_pos c.nul_notMem

theorem CString.eq_of_bytes {c c' : CString} (h : c.bytes = c'.bytes) : c = c' :=
  Option.some.inj ((CString.new_eq_some.2 rfl).symm.trans (CString.new_eq_some.2 h.symm))

/-- A C string is read back from where it is stored. -/
theorem CString.ofMemory_bytes (c : CString) (rest : Bytes) : CString.ofMemory (c.bytes ++ 0 :: rest) = c := by
  have hne : ∀ b ∈ c.bytes, decide (b ≠ 0) = true := fun b hb =>
    decide_eq_true fun hzero => c.nul_notMem (hzero ▸ hb)
  refine CString.eq_of_bytes ?_
  calc (c.bytes ++ 0 :: rest).takeWhile (· ≠ 0)
    _ = c.bytes ++ (0 :: rest).takeWhile (· ≠ 0) := List.takeWhile_append_of_pos hne
    _ = c.bytes := by simp

/-- A string without NULs is a C string. -/
theorem CString.exists_utf8 {s : String} (h : '\x00' ∉ s.toList) : ∃ c : CString, c.bytes = utf8 s :=
  ⟨⟨utf8 s, (mem_utf8_ascii (a := '\x00') (by decide)).not.2 h⟩, rfl⟩

/-- A string without NULs is read back from where it is stored. -/
theorem CString.ofMemory_utf8 {s : String} (h : '\x00' ∉ s.toList) (rest : Bytes) :
    (CString.ofMemory (utf8 s ++ 0 :: rest)).bytes = utf8 s := by
  obtain ⟨c, hc⟩ := CString.exists_utf8 h
  rw [← hc, CString.ofMemory_bytes]

end Rust
