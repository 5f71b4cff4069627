import CrudeOAuth.Core.Options
import CrudeOAuth.Pam.Args
import Mathlib.Data.List.Perm.Subperm
import Mathlib.Order.Bounds.Basic

/-!
# The search for numbered options

`getIndexed` looks up the numbers of an option up to the first that is unset. In a file it
comes to that one before it runs out of entries, as each number is found in an entry of its
own (`getIndexed_search`). In any lookup it fails exactly if, before that number, it meets
an empty value or an error of the lookup.
-/

namespace CrudeOAuth.Pam

open Rust Rust.Outcome

/-- The loop of `getIndexed`, with the names that it looks up. -/
def getIndexedLog (get : Getter) (pre : String) :
    (fuel index : Nat) → (values : List String) → Outcome OptionsError (List String) × List String
  | 0, _, _ => (.panic, [])
  | fuel + 1, index, values =>
    let name := pre ++ toString index
    match get name with
    | .ok (some v) =>
      if v ≠ "" then
        let (result, names) := getIndexedLog get pre fuel (index + 1) (values ++ [v])
        (result, name :: names)
      else (.err (.emptyOption name), [name])
    | .ok none => (.ok values, [name])
    | .error e => (.err (.lookup e), [name])

variable {get : Getter} {pre : String} {entries : List (String × String)} {n : Nat}

/-- The names are all that is added to the loop. -/
theorem getIndexedLog_fst (fuel index : Nat) (values : List String) :
    (getIndexedLog get pre fuel index values).1 = getIndexedLoop get pre fuel index values := by
  induction fuel generalizing index values with
  | zero => rfl
  | succ fuel ih =>
    rw [getIndexedLog, getIndexedLoop, getOption]
    cases get (pre ++ toString index) with
    | error e => rfl
    | ok value =>
      cases value with
      | none => rfl
      | some v =>
        simp only [ok_bind]
        split
        · exact ih _ _
        · rfl

/-! ## The first number that is unset -/

/-- The loop looks up the numbers of the values that are left, and then the one that is unset. -/
theorem getIndexedLog_eq {result : List String} (hset : SetTo get pre result)
    (hunset : get (pre ++ toString result.length) = .ok none) {values rest : List String}
    (hresult : values ++ rest = result) {fuel : Nat} (hfuel : rest.length < fuel) :
    getIndexedLog get pre fuel values.length values =
      (.ok result, (List.range' values.length (rest.length + 1)).map (pre ++ toString ·)) := by
  induction rest generalizing values fuel with
  | nil =>
    obtain ⟨fuel, rfl⟩ := Nat.exists_eq_add_of_le' (show 1 ≤ fuel from hfuel)
    rw [List.append_nil] at hresult
    subst hresult
    rw [getIndexedLog, hunset]
    rfl
  | cons v rest ih =>
    obtain ⟨fuel, rfl⟩ := Nat.exists_eq_add_of_le' (show 1 ≤ fuel from Nat.lt_of_le_of_lt (Nat.zero_le _) hfuel)
    obtain ⟨hget, hv⟩ := hset values.length v (by simp [← hresult])
    have hlen : (values ++ [v]).length = values.length + 1 := List.length_append
    have hnext := @ih (values ++ [v]) (by simpa using hresult) fuel (Nat.lt_of_succ_lt_succ hfuel)
    rw [hlen] at hnext
    rw [getIndexedLog, hget]
    dsimp only
    rw [if_pos hv, hnext, List.length_cons, List.range'_succ]
    rfl

/-- The option is unset with the number, and not with a lower one. -/
def FirstUnset (get : Getter) (pre : String) (n : Nat) : Prop :=
  IsLeast {i : Nat | get (pre ++ toString i) = .ok none} n

/-- The lookup of the option with the number is refused. -/
def Refused (get : Getter) (pre : String) (i : Nat) : Prop :=
  get (pre ++ toString i) = .ok (some "") ∨ ∃ e, get (pre ++ toString i) = .error e

/-- There are values unless one before the first number that is unset is refused. -/
theorem exists_numbered_iff (hn : FirstUnset get pre n) (hlt : n < 2 ^ 64) :
    (∃ values, Numbered get pre values) ↔ ∀ i < n, ¬Refused get pre i := by
  constructor
  · rintro ⟨values, h⟩ i hi hrefused
    have hle : n ≤ values.length := hn.2 h.isUnset
    obtain ⟨hget, hv⟩ := h.isSet i values[i] (List.getElem?_eq_getElem (by omega))
    rcases hrefused with hempty | ⟨e, herror⟩
    · rw [hget] at hempty
      exact hv (Option.some.inj (Except.ok.inj hempty))
    · rw [hget] at herror
      cases herror
  · intro h
    have hvalue : ∀ i < n, ∃ v, get (pre ++ toString i) = .ok (some v) ∧ v ≠ "" := by
      intro i hi
      cases hget : get (pre ++ toString i) with
      | error e => exact absurd (.inr ⟨e, hget⟩) (h i hi)
      | ok value =>
        cases value with
        | none => exact absurd (hn.2 hget) (Nat.not_le.2 hi)
        | some v =>
          refine ⟨v, rfl, ?_⟩
          rintro rfl
          exact h i hi (.inl hget)
    choose! value hvalue using hvalue
    refine ⟨(List.range n).map value, fun i v hi => ?_, ?_, ?_⟩
    · obtain ⟨k, hk, rfl⟩ := Option.map_eq_some_iff.1 (List.getElem?_map ▸ hi)
      obtain ⟨hlen, rfl⟩ := List.getElem?_eq_some_iff.1 hk
      rw [List.getElem_range]
      exact hvalue i (by simpa using hlen)
    · rw [List.length_map, List.length_range]
      exact hn.1
    · rw [List.length_map, List.length_range]
      exact hlt

/-! ## Entries -/

/-- Names with different numbers are found in different entries. -/
theorem le_length_of_keys (h : ∀ i < n, pre ++ toString i ∈ entries.map Prod.fst) : n ≤ entries.length := by
  have hnodup : ((List.range n).map fun i => pre ++ toString i).Nodup := by
    refine List.Nodup.map ?_ List.nodup_range
    intro i j hij
    exact toString_inj ((String.append_right_inj pre).1 hij)
  have hsubset : ((List.range n).map fun i => pre ++ toString i) ⊆ entries.map Prod.fst := by
    intro name hname
    obtain ⟨i, hi, rfl⟩ := List.mem_map.1 hname
    exact h i (List.mem_range.1 hi)
  simpa using (List.subperm_of_subset hnodup hsubset).length_le

theorem lookup_eq_none_iff {name : String} : entries.lookup name = none ↔ name ∉ entries.map Prod.fst := by
  rw [List.lookup_eq_none_iff, List.mem_map]
  constructor
  · rintro h ⟨entry, hentry, rfl⟩
    simpa using h entry hentry
  · intro h entry hentry
    simpa using fun heq : name = entry.1 => h ⟨entry, hentry, heq.symm⟩

/-- Some number is not in use: there are not enough entries for all of them. -/
theorem exists_unused (entries : List (String × String)) (pre : String) :
    ∃ i : Nat, pre ++ toString i ∉ entries.map Prod.fst := by
  by_contra h
  push Not at h
  have hle : entries.length + 1 ≤ entries.length := le_length_of_keys fun i _ => h i
  omega

/-- What the search for an option comes to in the entries of a file, where `n` is the number
    that it stops at. -/
structure Finds (entries : List (String × String)) (pre : String) (n : Nat) (values : List String) : Prop where
  /-- the number is the least one whose name is not a key -/
  least : IsLeast {i : Nat | pre ++ toString i ∉ entries.map Prod.fst} n
  length : values.length = n
  /-- the values are those of the first entries with the names -/
  getElem : ∀ i < n, values[i]? = entries.lookup (pre ++ toString i)
  /-- the names are looked up in order, each of them once -/
  search : ∀ fuel, n < fuel → getIndexedLog (lookupEntry entries) pre fuel 0 [] =
    (.ok values, (List.range (n + 1)).map (pre ++ toString ·))
  lookups : ((List.range (n + 1)).map (pre ++ toString ·)).length ≤ entries.length + 1

/-- In a file the search finds the values of the option, with one lookup more than there are
    entries at most. -/
theorem exists_finds (hentries : ∀ k v, (k, v) ∈ entries → v ≠ "") (pre : String) :
    ∃ n values, Finds entries pre n values := by
  obtain ⟨n, hunused, hleast⟩ : ∃ n : Nat, pre ++ toString n ∉ entries.map Prod.fst ∧
      ∀ i < n, pre ++ toString i ∈ entries.map Prod.fst :=
    ⟨Nat.find (exists_unused entries pre), Nat.find_spec (exists_unused entries pre),
      fun i hi => not_not.1 (Nat.find_min _ hi)⟩
  have hvalue : ∀ i < n, ∃ v, entries.lookup (pre ++ toString i) = some v := fun i hi =>
    Option.ne_none_iff_exists'.1 fun hnone => lookup_eq_none_iff.1 hnone (hleast i hi)
  choose! value hvalue using hvalue
  have hget : ∀ i < n, ((List.range n).map value)[i]? = entries.lookup (pre ++ toString i) := by
    intro i hi
    rw [List.getElem?_map, List.getElem?_range hi, hvalue i hi]
    rfl
  have hlen : ((List.range n).map value).length = n := by simp
  have hset : SetTo (lookupEntry entries) pre ((List.range n).map value) := by
    intro i v hv
    have hi : i < n := hlen ▸ (List.getElem?_eq_some_iff.1 hv).1
    rw [hget i hi] at hv
    obtain ⟨before, after, hsplit, -⟩ := List.lookup_eq_some_iff.1 hv
    exact ⟨congrArg Except.ok hv, hentries _ v (hsplit ▸ List.mem_append_right _ List.mem_cons_self)⟩
  refine ⟨n, (List.range n).map value, ⟨hunused, fun i hi => ?_⟩, hlen, hget, fun fuel hfuel => ?_, ?_⟩
  · by_contra hlt
    exact hi (hleast i (Nat.not_le.1 hlt))
  · have hunset : lookupEntry entries (pre ++ toString ((List.range n).map value).length) = .ok none := by
      rw [hlen]
      exact congrArg Except.ok (lookup_eq_none_iff.2 hunused)
    have hlog := @getIndexedLog_eq _ _ _ hset hunset [] _ (List.nil_append _) fuel (by rwa [hlen])
    rw [hlen, List.length_nil, ← List.range_eq_range'] at hlog
    exact hlog
  · rw [List.length_map, List.length_range]
    exact Nat.succ_le_succ (le_length_of_keys hleast)

/-- The search ends: in a file at the least number that is not in use, with the values before
    it and, at most, one lookup more than there are entries. In any lookup with a number that
    is unset it fails exactly if a lower one is refused. A number is a `usize`, and a list has
    no more entries than a `usize` counts. -/
theorem getIndexed_search :
    (∀ (entries : List (String × String)) (pre : String), (∀ k v, (k, v) ∈ entries → v ≠ "") →
      ∃ n values, Finds entries pre n values ∧
        (entries.length < 2 ^ 64 → getIndexed (lookupEntry entries) pre = .ok values)) ∧
      ∀ (get : Getter) (pre : String), (∃ i < 2 ^ 64, get (pre ++ toString i) = .ok none) →
        ∃ n, FirstUnset get pre n ∧ getIndexed get pre ≠ .panic ∧
          ((∃ e, getIndexed get pre = .err e) ↔ ∃ i < n, Refused get pre i) := by
  constructor
  · intro entries pre hentries
    obtain ⟨n, values, h⟩ := exists_finds hentries pre
    refine ⟨n, values, h, fun hcount => ?_⟩
    have hlookups := h.lookups
    rw [List.length_map, List.length_range] at hlookups
    rw [getIndexed, ← getIndexedLog_fst, h.search _ (by omega)]
  · rintro get pre hunset
    have hne := getIndexed_ne_panic hunset
    obtain ⟨i, hi, hget⟩ := hunset
    obtain ⟨n, hn⟩ : ∃ n, FirstUnset get pre n :=
      ⟨Nat.find ⟨i, hget⟩, Nat.find_spec ⟨i, hget⟩, fun j hj => Nat.find_min' _ hj⟩
    have hlt : n < 2 ^ 64 := lt_of_le_of_lt (hn.2 hget) hi
    refine ⟨n, hn, hne, ?_⟩
    have hnumbered := exists_numbered_iff hn hlt
    constructor
    · rintro ⟨e, he⟩
      by_contra hnone
      push Not at hnone
      obtain ⟨values, hvalues⟩ := hnumbered.2 hnone
      rw [getIndexed_eq_ok.2 hvalues] at he
      cases he
    · rintro ⟨j, hj, hrefused⟩
      cases hresult : getIndexed get pre with
      | ok values => exact absurd hrefused (hnumbered.1 ⟨values, getIndexed_eq_ok.1 hresult⟩ j hj)
      | err e => exact ⟨e, rfl⟩
      | panic => exact absurd hresult hne

namespace Fixture

def numberedEntries : List (String × String) := [("aud0", "first"), ("aud1", "second"), ("aud1", "third"), ("aud3", "last")]

/-- The second number is empty. -/
def emptyNumber : Getter := fun name => .ok (List.lookup name [("aud0", "first"), ("aud1", "")])

end Fixture

/-- In the entries the search stops where a number is left out, and an empty one is refused. -/
theorem getIndexed_search_fixture :
    (∃ values, getIndexed (lookupEntry Fixture.numberedEntries) "aud" = .ok values ∧ values[1]? = some "second") ∧
      ∃ e, getIndexed Fixture.emptyNumber "aud" = .err e := by
  obtain ⟨hentries, hget⟩ := getIndexed_search
  constructor
  · have hnonempty : ∀ entry ∈ Fixture.numberedEntries, entry.2 ≠ "" := by decide +kernel
    obtain ⟨n, values, hfinds, hvalues⟩ := hentries Fixture.numberedEntries "aud" fun k v hentry =>
      hnonempty (k, v) hentry
    have hlt : 1 < n := by
      refine Nat.lt_of_not_le fun hle => hfinds.least.1 ?_
      obtain rfl | rfl : n = 0 ∨ n = 1 := by omega
      · decide +kernel
      · decide +kernel
    exact ⟨values, hvalues (by decide), (hfinds.getElem 1 hlt).trans (by decide +kernel)⟩
  · obtain ⟨n, hn, -, hiff⟩ := hget Fixture.emptyNumber "aud" ⟨2, by decide, by decide +kernel⟩
    have hlt : 1 < n := by
      refine Nat.lt_of_not_le fun hle => ?_
      have hunset : Fixture.emptyNumber ("aud" ++ toString n) = .ok none := hn.1
      obtain rfl | rfl : n = 0 ∨ n = 1 := by omega
      · exact absurd hunset (by decide +kernel)
      · exact absurd hunset (by decide +kernel)
    exact hiff.2 ⟨1, hlt, .inl (by decide +kernel)⟩

end CrudeOAuth.Pam
