import CrudeOAuth.Core.Options

/-!
# Two spellings of a list

The values of a list option are given with numbers, or as the words of one value without a
number. Words that are spelled both ways are the same list, and so lead to the same policy
or the same refusal of it (`spellings_agree`).
-/

namespace CrudeOAuth

open Rust Rust.Outcome

variable {get get' : Getter} {name : String} {words : List String}

/-- What words are separated by. -/
def isSeparator (c : Char) : Bool := c == ',' || isAsciiWhitespace c

structure IsWord (word : String) : Prop where
  ne_empty : word ≠ ""
  plain : ∀ c ∈ word.toList, isSeparator c = false

/-- The text is made of the words, with separators between them, and maybe around them. -/
inductive Joins : List String → List Char → Prop
  | none {run : List Char} (hrun : ∀ c ∈ run, isSeparator c = true) : Joins [] run
  | last {before after : List Char} {word : String} (hbefore : ∀ c ∈ before, isSeparator c = true)
    (hafter : ∀ c ∈ after, isSeparator c = true) : Joins [word] (before ++ word.toList ++ after)
  | next {before run text : List Char} {word word' : String} {words : List String}
    (hbefore : ∀ c ∈ before, isSeparator c = true) (hrun : ∀ c ∈ run, isSeparator c = true)
    (hne : run ≠ []) (htext : Joins (word' :: words) text) :
    Joins (word :: word' :: words) (before ++ word.toList ++ run ++ text)

/-- The option says the words: one with each number, or all in a text without a number. -/
inductive Spells (get : Getter) (name : String) (words : List String) : Prop
  | numbered (h : Numbered get name words) (hunset : get name = .ok none)
  | text {text : String} (hunset : get (name ++ "0") = .ok none) (htext : get name = .ok (some text))
    (h : Joins words text.toList)

/-! ## The list -/

theorem filter_splitOnP_of_joins {text : List Char} (h : Joins words text) (hwords : ∀ w ∈ words, IsWord w) :
    (text.splitOnP isSeparator).filter (· ≠ []) = words.map String.toList := by
  induction h with
  | none hrun => exact filter_splitOnP_separators hrun
  | @last before after word hbefore hafter =>
    have hword : IsWord word := hwords word List.mem_cons_self
    rw [List.append_assoc, filter_splitOnP_run hbefore, filter_splitOnP_word hword.plain,
      filter_splitOnP_separators hafter]
    · rfl
    · exact fun hnil => hword.ne_empty (String.toList_eq_nil_iff.1 hnil)
    · exact fun c hc => hafter c (List.mem_of_mem_head? hc)
  | @next before run text word word' words hbefore hrun hne _ ih =>
    have hword : IsWord word := hwords word List.mem_cons_self
    rw [List.append_assoc, List.append_assoc, filter_splitOnP_run hbefore, filter_splitOnP_word hword.plain,
      filter_splitOnP_run hrun, ih fun w hw => hwords w (List.mem_cons_of_mem _ hw)]
    · rfl
    · exact fun hnil => hword.ne_empty (String.toList_eq_nil_iff.1 hnil)
    · intro c hc
      rw [List.head?_append_of_ne_nil _ hne] at hc
      exact hrun c (List.mem_of_mem_head? hc)

theorem optionWords_of_joins {text : String} (h : Joins words text.toList) (hwords : ∀ w ∈ words, IsWord w) :
    optionWords text = words := by
  have hwords' := filter_splitOnP_of_joins h hwords
  have hfilter : (fun piece : String => decide (piece ≠ "")) ∘ String.ofList = fun piece => decide (piece ≠ []) :=
    funext fun piece => decide_eq_decide.2 (not_congr String.ofList_eq_empty_iff)
  rw [optionWords, splitWhere, List.filter_map, hfilter]
  exact (congrArg (List.map String.ofList) hwords').trans (by simp)

/-- Both spellings are read as the list of the words. -/
theorem getListOption_of_spells (h : Spells get name words) (hwords : ∀ w ∈ words, IsWord w) :
    getListOption get name = .ok words := by
  rw [getListOption_eq_ok]
  cases h with
  | numbered h hunset =>
    by_cases hnil : words = []
    · subst hnil
      exact .unset h hunset
    · exact .numbered h hnil
  | text hunset htext h =>
    have hlisted : Listed get name (optionWords _) := .words (numbered_nil.2 hunset) htext
    rw [optionWords_of_joins h hwords] at hlisted
    exact hlisted

/-! ## The policy -/

/-- The options whose values are a list in two spellings. -/
def listOptions : List String :=
  ["oauthbearer_allowed_alg", "oauthbearer_disallowed_alg", "oauthbearer_disallowed_username"]

/-- The lookups agree but for the spelling of lists: the values of a list option are the same
    words, or are looked up alike. -/
structure SpelledAlike (get get' : Getter) : Prop where
  list : ∀ option ∈ listOptions, (∃ words, (∀ w ∈ words, IsWord w) ∧ Spells get option words ∧ Spells get' option words) ∨
    get option = get' option ∧ ∀ i : Nat, get (option ++ toString i) = get' (option ++ toString i)
  other : ∀ name : String, (∀ option ∈ listOptions, name ≠ option ∧ ∀ i : Nat, name ≠ option ++ toString i) →
    get name = get' name

/-- The options that are no lists in two spellings. -/
def otherOptions : List String :=
  ["oauthbearer_userid", "oauthbearer_grace", "oauthbearer_trusted_iss0", "oauthbearer_trusted_jwks0",
    "oauthbearer_trusted_aud", "oauthbearer_trusted_azp", "oauthbearer_required_scope"]

theorem stem_ne : ∀ other ∈ otherOptions, ∀ option ∈ listOptions, stem other ≠ stem option := by decide +kernel

theorem SpelledAlike.get_eq (h : SpelledAlike get get') (hname : ∀ option ∈ listOptions, stem name ≠ stem option) :
    get name = get' name := by
  refine h.other name fun option hoption => ⟨?_, fun i => ?_⟩
  · rintro rfl
    exact hname name hoption rfl
  · rintro rfl
    exact hname option hoption (stem_append isDigit_of_mem_toString)

theorem SpelledAlike.getOption_eq (h : SpelledAlike get get') (hname : name ∈ otherOptions) :
    getOption get name = getOption get' name := by
  rw [getOption, getOption, h.get_eq (stem_ne name hname)]

theorem SpelledAlike.getIndexed_eq (h : SpelledAlike get get') (hname : name ∈ otherOptions) :
    getIndexed get name = getIndexed get' name := by
  refine getIndexed_congr_numbered fun i => h.get_eq fun option hoption => ?_
  rw [stem_append isDigit_of_mem_toString]
  exact stem_ne name hname option hoption

theorem SpelledAlike.getListOption_eq (h : SpelledAlike get get') (hname : name ∈ listOptions) :
    getListOption get name = getListOption get' name := by
  rcases h.list name hname with ⟨words, hwords, hspells, hspells'⟩ | ⟨hget, hnumbered⟩
  · rw [getListOption_of_spells hspells hwords, getListOption_of_spells hspells' hwords]
  · rw [getListOption, getListOption, getIndexed_congr_numbered hnumbered, getOption, getOption, hget]

/-- Words are read as they are in both spellings, and with them the same policy, or the same
    refusal of it. -/
theorem spellings_agree :
    (∀ (get : Getter) (name : String) (words : List String), (∀ w ∈ words, IsWord w) →
      Spells get name words → getListOption get name = .ok words) ∧
      ∀ get get' : Getter, SpelledAlike get get' → PolicyOptions.read get = PolicyOptions.read get' := by
  refine ⟨fun get name words hwords h => getListOption_of_spells h hwords, fun get get' h => ?_⟩
  simp (disch := decide) only [PolicyOptions.read, h.getOption_eq, h.getIndexed_eq, h.getListOption_eq]

namespace Fixture

/-- Two algorithms, each with a number, -/
def numberedAlgorithms : Getter := fun name =>
  .ok (List.lookup name [("oauthbearer_allowed_alg0", "RS256"), ("oauthbearer_allowed_alg1", "ES256")])

/-- and in one text. -/
def writtenAlgorithms : Getter := fun name =>
  .ok (List.lookup name [("oauthbearer_allowed_alg", " RS256 ,, ES256")])

theorem isWord_algorithms : ∀ w ∈ ["RS256", "ES256"], IsWord w := by
  have hword : ∀ w ∈ ["RS256", "ES256"], w ≠ "" ∧ w.toList.any isSeparator = false := by decide +kernel
  exact fun w hw => ⟨(hword w hw).1, fun c hc => Bool.not_eq_true _ ▸ List.any_eq_false.1 (hword w hw).2 c hc⟩

theorem spells_numbered : Spells numberedAlgorithms "oauthbearer_allowed_alg" ["RS256", "ES256"] := by
  refine .numbered ⟨fun i v hv => ?_, by decide +kernel, by decide⟩ (by decide +kernel)
  obtain ⟨hi, -⟩ := List.getElem?_eq_some_iff.1 hv
  obtain rfl | rfl : i = 0 ∨ i = 1 := by
    have hi : i < 2 := hi
    omega
  · obtain rfl := Option.some.inj hv
    exact ⟨by decide +kernel, by decide⟩
  · obtain rfl := Option.some.inj hv
    exact ⟨by decide +kernel, by decide⟩

theorem spells_written : Spells writtenAlgorithms "oauthbearer_allowed_alg" ["RS256", "ES256"] := by
  have hjoins : Joins ["RS256", "ES256"]
      ([' '] ++ "RS256".toList ++ [' ', ',', ',', ' '] ++ ([] ++ "ES256".toList ++ [])) :=
    .next (List.all_eq_true.1 (by decide)) (List.all_eq_true.1 (by decide)) (by decide)
      (.last (List.all_eq_true.1 rfl) (List.all_eq_true.1 rfl))
  have htext : writtenAlgorithms "oauthbearer_allowed_alg" = .ok (some " RS256 ,, ES256") := by decide +kernel
  have hchars : " RS256 ,, ES256".toList =
      [' '] ++ "RS256".toList ++ [' ', ',', ',', ' '] ++ ([] ++ "ES256".toList ++ []) := by decide +kernel
  exact .text (by decide +kernel) htext (hchars ▸ hjoins)

/-- Other names are unset in both. -/
theorem algorithms_eq_none {name : String} (hname : ∀ key ∈ ["oauthbearer_allowed_alg", "oauthbearer_allowed_alg0",
    "oauthbearer_allowed_alg1"], name ≠ key) : numberedAlgorithms name = writtenAlgorithms name := by
  simp only [List.forall_mem_cons] at hname
  obtain ⟨h, h0, h1, -⟩ := hname
  simp [numberedAlgorithms, writtenAlgorithms, List.lookup_cons, beq_false_of_ne h, beq_false_of_ne h0, beq_false_of_ne h1]

theorem spelledAlike_algorithms : SpelledAlike numberedAlgorithms writtenAlgorithms where
  list option hoption := by
    rcases List.mem_cons.1 hoption with rfl | hoption
    · exact .inl ⟨_, isWord_algorithms, spells_numbered, spells_written⟩
    · -- The names of the other lists have another stem.
      have hstems : ∀ option ∈ ["oauthbearer_disallowed_alg", "oauthbearer_disallowed_username"],
          ∀ key ∈ ["oauthbearer_allowed_alg", "oauthbearer_allowed_alg0", "oauthbearer_allowed_alg1"],
            stem option ≠ stem key := by decide +kernel
      refine .inr ⟨algorithms_eq_none fun key hkey heq => hstems option hoption key hkey (by rw [heq]), fun i =>
        algorithms_eq_none fun key hkey heq => hstems option hoption key hkey ?_⟩
      rw [← heq, stem_append isDigit_of_mem_toString]
  other name hname := by
    obtain ⟨hplain, hnumbered⟩ := hname "oauthbearer_allowed_alg" List.mem_cons_self
    refine algorithms_eq_none fun key hkey => ?_
    rcases List.mem_cons.1 hkey with rfl | hkey
    · exact hplain
    · rcases List.mem_cons.1 hkey with rfl | hkey
      · exact hnumbered 0
      · obtain rfl := List.mem_singleton.1 hkey
        exact hnumbered 1

end Fixture

/-- The algorithms are allowed in both spellings. -/
theorem spellings_agree_fixture :
    getListOption Fixture.writtenAlgorithms "oauthbearer_allowed_alg" = .ok ["RS256", "ES256"] ∧
      PolicyOptions.read Fixture.numberedAlgorithms = PolicyOptions.read Fixture.writtenAlgorithms :=
  ⟨spellings_agree.1 _ _ _ Fixture.isWord_algorithms Fixture.spells_written,
    spellings_agree.2 _ _ Fixture.spelledAlike_algorithms⟩

end CrudeOAuth
