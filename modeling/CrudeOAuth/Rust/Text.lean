import CrudeOAuth.Rust.Bytes
import Mathlib.Data.List.DropRight

/-!
# Text

The methods of `char` and `str` that texts are read with. A `String` is the list of
its characters where a method works on characters; comparisons ignoring ASCII case
are those of the bytes.
-/

namespace Rust

/-! ## Characters -/

/-- `c.is_whitespace()`, the Unicode property `White_Space`. -/
def isWhitespace (c : Char) : Bool :=
  ('\t' ≤ c && c ≤ '\r') || c == ' ' || c == '\u0085' || c == '\u00a0' || c == '\u1680' ||
    ('\u2000' ≤ c && c ≤ '\u200a') || c == '\u2028' || c == '\u2029' || c == '\u202f' ||
    c == '\u205f' || c == '\u3000'

/-- `c.is_control()`, the Unicode category `Cc`. -/
def isControl (c : Char) : Bool := c ≤ '\x1f' || ('\x7f' ≤ c && c ≤ '\u009f')

/-- `c.is_ascii_whitespace()` -/
def isAsciiWhitespace (c : Char) : Bool :=
  c == ' ' || c == '\t' || c == '\n' || c == '\x0c' || c == '\r'

/-- `c.is_ascii_alphanumeric()` -/
def isAsciiAlphanumeric (c : Char) : Bool := c.isAlphanum

/-! ## Trimming -/

/-- `s.trim_start()` -/
def trimStart (s : String) : String := String.ofList (s.toList.dropWhile isWhitespace)

/-- `s.trim()` -/
def trim (s : String) : String :=
  String.ofList ((s.toList.dropWhile isWhitespace).rdropWhile isWhitespace)

/-- The text neither starts nor ends with whitespace. -/
def Trimmed (s : String) : Prop :=
  (∀ c ∈ s.toList.head?, isWhitespace c = false) ∧ ∀ c ∈ s.toList.getLast?, isWhitespace c = false

theorem trim_eq_self {s : String} : trim s = s ↔ Trimmed s := by
  have hlen : ∀ l : List Char, (l.dropWhile isWhitespace).rdropWhile isWhitespace = l ↔
      l.dropWhile isWhitespace = l ∧ l.rdropWhile isWhitespace = l := by
    intro l
    constructor
    · intro h
      -- Both steps only drop, so neither dropped anything.
      have h1 := (List.rdropWhile_prefix isWhitespace (l.dropWhile isWhitespace)).length_le
      rw [h] at h1
      have h2 : l.dropWhile isWhitespace = l :=
        (List.dropWhile_suffix isWhitespace).eq_of_length_le h1
      rw [h2] at h
      exact ⟨h2, h⟩
    · rintro ⟨h1, h2⟩
      rw [h1, h2]
  rw [trim, ← String.toList_inj, String.toList_ofList, hlen, Trimmed]
  refine and_congr ?_ ?_
  · cases s.toList with
    | nil => simp
    | cons c l =>
      rw [List.dropWhile_cons]
      cases hc : isWhitespace c with
      | false => simp [hc]
      | true =>
        refine iff_of_false (fun h => ?_) (by simp [hc])
        have := (List.dropWhile_suffix (l := l) isWhitespace).length_le
        rw [if_pos rfl] at h
        rw [h, List.length_cons] at this
        omega
  · rw [List.rdropWhile_eq_self_iff]
    constructor
    · intro h c hc
      obtain ⟨hne, rfl⟩ := List.mem_getLast?_eq_getLast hc
      simpa using h hne
    · intro h hne
      simpa using h _ (List.getLast?_eq_getLast_of_ne_nil hne)

theorem trim_eq_empty {s : String} : trim s = "" ↔ ∀ c ∈ s.toList, isWhitespace c = true := by
  rw [trim, String.ofList_eq_empty_iff, List.rdropWhile_eq_nil_iff]
  constructor
  · intro h c hc
    -- What is left in front of trailing whitespace would start with another character.
    have hnil : s.toList.dropWhile isWhitespace = [] := by
      cases hdrop : s.toList.dropWhile isWhitespace with
      | nil => rfl
      | cons d rest =>
        have hd : isWhitespace d = false := by
          have := List.head?_dropWhile_not isWhitespace s.toList
          rw [hdrop] at this
          simpa using this
        have := h d (hdrop ▸ List.mem_cons_self)
        rw [hd] at this
        cases this
    exact List.dropWhile_eq_nil_iff.1 hnil c hc
  · intro h c hc
    exact h c ((List.dropWhile_suffix isWhitespace).subset hc)

theorem mem_of_mem_trimStart {s : String} {c : Char} (h : c ∈ (trimStart s).toList) : c ∈ s.toList := by
  rw [trimStart, String.toList_ofList] at h
  exact (List.dropWhile_suffix isWhitespace).subset h

theorem mem_of_mem_trim {s : String} {c : Char} (h : c ∈ (trim s).toList) : c ∈ s.toList := by
  rw [trim, String.toList_ofList] at h
  exact (List.dropWhile_suffix isWhitespace).subset ((List.rdropWhile_prefix isWhitespace _).subset h)

/-! ## Splitting -/

/-- `s.split(p)` -/
def splitWhere (p : Char → Bool) (s : String) : List String := (s.toList.splitOnP p).map String.ofList

/-- `s.split_ascii_whitespace()` -/
def splitAsciiWhitespace (s : String) : List String :=
  (splitWhere isAsciiWhitespace s).filter (· ≠ "")

/-- There is nothing between the separators of a text that is made of them only. -/
theorem splitWhere_eq_nil {p : Char → Bool} {s : String} :
    (splitWhere p s).filter (· ≠ "") = [] ↔ ∀ c ∈ s.toList, p c = true := by
  have hsplit : ∀ l : List Char, (∀ piece ∈ l.splitOnP p, piece = []) ↔ ∀ c ∈ l, p c = true := by
    intro l
    induction l with
    | nil => simp
    | cons c l ih =>
      rw [List.splitOnP_cons_eq_if_modifyHead, List.forall_mem_cons, ← ih]
      split
      · rename_i hc
        simp [hc]
      · rename_i hc
        obtain ⟨piece, pieces, hpieces⟩ := List.exists_cons_of_ne_nil (List.splitOnP_ne_nil p l)
        simp [hpieces, hc]
  rw [List.filter_eq_nil_iff, splitWhere, List.forall_mem_map, ← hsplit]
  simp [← String.toList_inj]

section

variable {α : Type} {p : α → Bool} {run word l : List α}

/-- Separators in front add nothing to what is between separators. -/
theorem filter_splitOnP_run (h : ∀ a ∈ run, p a = true) :
    ((run ++ l).splitOnP p).filter (· ≠ []) = (l.splitOnP p).filter (· ≠ []) := by
  induction run with
  | nil => rfl
  | cons a run ih =>
    obtain ⟨ha, hrun⟩ := List.forall_mem_cons.1 h
    rw [List.cons_append, List.splitOnP_cons_eq_if_modifyHead, if_pos ha, List.filter_cons_of_neg (by simp), ih hrun]

theorem filter_splitOnP_separators (h : ∀ a ∈ run, p a = true) : (run.splitOnP p).filter (· ≠ []) = [] := by
  have hrun := @filter_splitOnP_run _ _ _ [] h
  rw [List.append_nil] at hrun
  rw [hrun]
  rfl

/-- A word is found up to the separator that follows it, or the end. -/
theorem filter_splitOnP_word (hword : ∀ a ∈ word, p a = false) (hne : word ≠ [])
    (hl : ∀ a ∈ l.head?, p a = true) :
    ((word ++ l).splitOnP p).filter (· ≠ []) = word :: (l.splitOnP p).filter (· ≠ []) := by
  cases l with
  | nil =>
    rw [List.append_nil, List.splitOnP_eq_singleton hword, List.splitOnP_nil]
    simp [hne]
  | cons a l =>
    have ha : p a = true := hl a rfl
    rw [List.splitOnP_append_cons_of_forall_mem hword a ha, List.splitOnP_cons_eq_if_modifyHead, if_pos ha]
    simp [hne]

end

/-- `s.strip_prefix(p)` -/
def stripPrefix (p s : String) : Option String :=
  if p.toList <+: s.toList then some (String.ofList (s.toList.drop p.toList.length)) else none

theorem stripPrefix_eq_some {p s t : String} : stripPrefix p s = some t ↔ s = p ++ t := by
  unfold stripPrefix
  split
  · rename_i h
    obtain ⟨l, hl⟩ := h
    rw [← hl, List.drop_left, Option.some.injEq, ← String.toList_inj, ← @String.toList_inj s,
      String.toList_ofList, String.toList_append, ← hl, List.append_cancel_left_eq]
  · rename_i h
    refine iff_of_false (by simp) fun hs => h ?_
    rw [hs, String.toList_append]
    exact List.prefix_append _ _

/-- `s.split_once(c)`, the texts before and after the first `c`. -/
def splitOnce (c : Char) (s : String) : Option (String × String) :=
  match s.toList.dropWhile (· ≠ c) with
  | [] => none
  | _ :: rest => some (String.ofList (s.toList.takeWhile (· ≠ c)), String.ofList rest)

theorem splitOnce_append {c : Char} {s t : String} (h : c ∉ s.toList) :
    splitOnce c (s ++ String.singleton c ++ t) = some (s, t) := by
  have hs : ∀ a ∈ s.toList, decide (a ≠ c) = true := fun a ha => by
    simpa using fun (e : a = c) => h (e ▸ ha)
  unfold splitOnce
  rw [String.toList_append, String.toList_append, List.append_assoc, List.dropWhile_append_of_pos hs,
    List.takeWhile_append_of_pos hs]
  simp

theorem splitOnce_eq_some {c : Char} {s : String} {kv : String × String} :
    splitOnce c s = some kv ↔ s = kv.1 ++ String.singleton c ++ kv.2 ∧ c ∉ kv.1.toList := by
  refine ⟨fun h => ?_, fun ⟨h, hc⟩ => h ▸ splitOnce_append hc⟩
  unfold splitOnce at h
  split at h
  · cases h
  · rename_i d rest hdrop
    obtain rfl := Option.some.inj h
    have hd : d = c := by
      have := List.head?_dropWhile_not (fun a => decide (a ≠ c)) s.toList
      rw [hdrop] at this
      simpa using this
    subst hd
    refine ⟨?_, fun hmem => ?_⟩
    · rw [← String.toList_inj, String.toList_append, String.toList_append, String.toList_ofList,
        String.toList_ofList, List.append_assoc, String.toList_singleton]
      exact (hdrop ▸ List.takeWhile_append_dropWhile (p := (· ≠ d))).symm
    · rw [String.toList_ofList] at hmem
      simpa using List.mem_takeWhile_imp hmem

/-- A text with a key in front is one that is split there into the key and the rest. -/
theorem stripPrefix_key {c : Char} {k s : String} (hk : c ∉ k.toList) :
    stripPrefix (k ++ String.singleton c) s =
      (splitOnce c s).bind fun kv => if kv.1 = k then some kv.2 else none := by
  refine Option.ext fun t => ?_
  rw [stripPrefix_eq_some, Option.bind_eq_some_iff]
  constructor
  · rintro rfl
    exact ⟨(k, t), splitOnce_append hk, if_pos rfl⟩
  · rintro ⟨⟨k', t'⟩, hsplit, h⟩
    obtain ⟨rfl, -⟩ := splitOnce_eq_some.1 hsplit
    split at h
    · rename_i hkey
      obtain rfl := Option.some.inj h
      exact hkey ▸ rfl
    · cases h

/-- `s.lines()`: a line ends with `\n` or `\r\n`, and the last one also without. -/
def lines (s : String) : List String :=
  let parts := s.toList.splitOn '\n'
  let ended := parts.dropLast.map fun l => if l.getLast? = some '\r' then l.dropLast else l
  (ended ++ parts.getLast?.toList.filter (· ≠ [])).map String.ofList

example : lines "a\r\n\nb\r" = ["a", "", "b\r"] := by decide

/-- The lines of a text are parts of it. -/
theorem mem_of_mem_lines {s line : String} {c : Char} (h : line ∈ lines s) (hc : c ∈ line.toList) :
    c ∈ s.toList := by
  have hsplit : ∀ l part : List Char, part ∈ l.splitOn '\n' → part ⊆ l := by
    intro l
    induction l with
    | nil => simp
    | cons a l ih =>
      intro part hpart
      obtain ⟨first, rest, hrest⟩ := List.exists_cons_of_ne_nil (List.splitOn_ne_nil '\n' l)
      rw [List.splitOn_cons_eq_if_modifyHead, hrest] at hpart
      split at hpart
      · rcases List.mem_cons.1 hpart with rfl | hpart
        · exact List.nil_subset _
        · exact List.subset_cons_of_subset _ (ih part (hrest ▸ hpart))
      · rw [List.modifyHead_cons] at hpart
        rcases List.mem_cons.1 hpart with rfl | hpart
        · exact List.cons_subset_cons a (ih first (hrest ▸ List.mem_cons_self))
        · exact List.subset_cons_of_subset _ (ih part (hrest ▸ List.mem_cons_of_mem _ hpart))
  obtain ⟨part, hpart, rfl⟩ := List.mem_map.1 h
  rw [String.toList_ofList] at hc
  rcases List.mem_append.1 hpart with hended | hlast
  · obtain ⟨whole, hwhole, rfl⟩ := List.mem_map.1 hended
    have hmem : c ∈ whole := by
      split at hc
      · exact List.dropLast_subset _ hc
      · exact hc
    exact hsplit _ _ (List.dropLast_subset _ hwhole) hmem
  · have hpart' := Option.mem_toList.1 (List.mem_of_mem_filter hlast)
    exact hsplit _ _ (List.mem_of_getLast? hpart') hc

/-- The lines of a text are those that it was made of. -/
theorem lines_join {ls : List String} (h : ∀ l ∈ ls, '\n' ∉ l.toList ∧ l.toList.getLast? ≠ some '\r') :
    lines (String.join (ls.map (· ++ "\n"))) = ls := by
  have hparts : (String.join (ls.map (· ++ "\n"))).toList.splitOn '\n' = ls.map String.toList ++ [[]] := by
    induction ls with
    | nil => rfl
    | cons l ls ih =>
      obtain ⟨hl, hls⟩ := List.forall_mem_cons.1 h
      rw [List.map_cons, String.join_cons, String.toList_append, String.toList_append, List.append_assoc]
      exact (List.splitOn_append_cons_self_of_not_mem hl.1 _).trans (congrArg (l.toList :: ·) (ih hls))
  have hended : (ls.map String.toList).map (fun l => if l.getLast? = some '\r' then l.dropLast else l) =
      ls.map String.toList := by
    rw [List.map_map]
    exact List.map_congr_left fun l hl => if_neg (h l hl).2
  rw [lines, hparts, List.dropLast_concat, hended, List.getLast?_concat]
  simp

/-! ## Comparing -/

/-- `s.eq_ignore_ascii_case(t)` -/
def eqIgnoreCase (s t : String) : Bool := eqIgnoreAsciiCase (utf8 s) (utf8 t)

/-- `s.to_ascii_lowercase()` -/
def toAsciiLowercase (s : String) : String := String.ofList (s.toList.map Char.toLower)

/-- Beyond ASCII a character has no case. -/
theorem toLower_of_le {c : Char} (hc : 128 ≤ c.toNat) : c.toLower = c := by
  refine dif_neg fun h => ?_
  have : c.toNat ≤ 'Z'.toNat := h.2
  have hZ : 'Z'.toNat = 90 := rfl
  omega

/-- A character is made lowercase in its bytes. -/
theorem utf8EncodeChar_toLower (c : Char) :
    String.utf8EncodeChar c.toLower = (String.utf8EncodeChar c).map asciiLower := by
  by_cases hc : c.toNat < 128
  · have hall : ∀ n : Fin 128, String.utf8EncodeChar (Char.ofNat n).toLower =
        (String.utf8EncodeChar (Char.ofNat n)).map asciiLower := by decide
    simpa using hall ⟨c.toNat, hc⟩
  · -- Beyond ASCII the bytes of the character have no case either.
    rw [toLower_of_le (Nat.not_lt.1 hc)]
    conv_lhs => rw [← List.map_id (String.utf8EncodeChar c)]
    refine List.map_congr_left fun b hb => ?_
    have hle := le_of_mem_utf8EncodeChar (Nat.not_lt.1 hc) hb
    rw [asciiLower, if_neg]
    · rfl
    intro h
    have hb' := UInt8.le_iff_toNat_le.1 h.2
    have hZ : 'Z'.toUInt8.toNat = 90 := rfl
    omega

theorem utf8_toAsciiLowercase (s : String) : utf8 (toAsciiLowercase s) = (utf8 s).map asciiLower := by
  rw [toAsciiLowercase, utf8_eq, utf8_eq, String.toList_ofList]
  induction s.toList with
  | nil => rfl
  | cons c l ih => rw [List.map_cons, utf8Chars_cons, utf8Chars_cons, ih, List.map_append, utf8EncodeChar_toLower]

/-- Texts are compared ignoring case by making them lowercase. -/
theorem eqIgnoreCase_iff {s t : String} :
    eqIgnoreCase s t = true ↔ toAsciiLowercase s = toAsciiLowercase t := by
  rw [eqIgnoreCase, eqIgnoreAsciiCase, beq_iff_eq, ← utf8_toAsciiLowercase, ← utf8_toAsciiLowercase]
  exact ⟨fun h => utf8_injective h, congrArg _⟩

end Rust
