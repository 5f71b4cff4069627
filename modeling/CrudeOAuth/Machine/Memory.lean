import Mathlib.Data.Set.Insert
import Mathlib.Logic.Function.Basic

/-!
# Memory with owners

Blocks at addresses, each of which may own one more block. The others are owned from the
outside, which holds the *roots*. In a tidy memory (`Memory.Tidy`) every root is live, every
owned block is live, and every live block has exactly one owner. So nothing dangles, and
nothing is lost.

* `Memory.Tidy.alloc`, `Memory.Tidy.drop`: a root comes and goes, with what it owns.
* `Memory.Tidy.assign`: a root comes to own a new block, in place of the one it owned.
* `Memory.Tidy.write`: a block is written to where it is.

Freeing a block that is not live, or looking into one, is `none`: that is what these
operations never come to in a tidy memory, if they are given roots.
-/

namespace Machine

abbrev Address := Nat

/-- The blocks that are live. -/
abbrev Memory (β : Type) := Address → Option β

namespace Memory

variable {β : Type}

/-- No block is live. -/
def empty : Memory β := fun _ => none

/-- A new block at an address. -/
def alloc (m : Memory β) (a : Address) (b : β) : Memory β := Function.update m a (some b)

def free (m : Memory β) (a : Address) : Option (Memory β) :=
  if (m a).isSome then some (Function.update m a none) else none

/-- Frees what a pointer points to, unless it is none. -/
def free? (m : Memory β) : Option Address → Option (Memory β)
  | none => some m
  | some a => m.free a

/-- Writes to a block. -/
def write (m : Memory β) (a : Address) (b : β) : Option (Memory β) :=
  if (m a).isSome then some (m.alloc a b) else none

variable (owns : β → Option Address)

/-- Frees a block, and the one that it owns before that. -/
def drop (m : Memory β) (a : Address) : Option (Memory β) :=
  (m a).bind fun b => (m.free? (owns b)).bind fun m => m.free a

/-- A block is changed to own a new one; the one that it owned is freed. -/
def assign (m : Memory β) (a : Address) (b : β) (c : Address) (d : β) : Option (Memory β) :=
  (m a).bind fun old => ((m.alloc c d).alloc a b).free? (owns old)

/-- Every live block has exactly one owner, which is live, or is the outside. -/
structure Tidy (roots : Set Address) (m : Memory β) : Prop where
  root : ∀ a ∈ roots, ∃ b, m a = some b
  owned : ∀ a b c, m a = some b → owns b = some c → c ∉ roots ∧ ∃ d, m c = some d ∧ owns d = none
  unique : ∀ a b a' b' c, m a = some b → m a' = some b' → owns b = some c → owns b' = some c → a = a'
  held : ∀ c d, m c = some d → c ∈ roots ∨ ∃ a b, m a = some b ∧ owns b = some c

variable {owns} {roots : Set Address} {m m' : Memory β} {a c : Address} {b d : β}

theorem alloc_apply (a' : Address) : m.alloc a b a' = if a' = a then some b else m a' :=
  Function.update_apply _ _ _ _

theorem free_eq_some : m.free a = some m' ↔ (∃ b, m a = some b) ∧ Function.update m a none = m' := by
  rw [free, ← Option.isSome_iff_exists]
  split
  · rename_i h
    rw [Option.some.injEq]
    exact (and_iff_right h).symm
  · rename_i h
    exact iff_of_false (by simp) fun hm => h hm.1

theorem write_of_some (h : m a = some d) : m.write a b = some (m.alloc a b) := by
  rw [write, h]
  rfl

theorem tidy_empty : Tidy owns ∅ (empty : Memory β) where
  root a h := h.elim
  owned a b c h := by cases h
  unique a b a' b' c h := by cases h
  held c d h := by cases h

/-- What is live is a root, or owned by one. -/
theorem Tidy.live_iff (h : Tidy owns roots m) : (∃ d, m c = some d) ↔
    c ∈ roots ∨ ∃ a ∈ roots, ∃ b, m a = some b ∧ owns b = some c := by
  constructor
  · rintro ⟨d, hd⟩
    refine (h.held c d hd).imp_right ?_
    rintro ⟨a, b, ha, hb⟩
    refine ⟨a, (h.held a b ha).resolve_right ?_, b, ha, hb⟩
    -- An owned block owns nothing.
    rintro ⟨a', b', ha', hb'⟩
    obtain ⟨-, b'', hb'', hnone⟩ := h.owned a' b' a ha' hb'
    rw [Option.some.inj (ha.symm.trans hb'')] at hb
    cases hb.symm.trans hnone
  · rintro (hroot | ⟨a, -, b, ha, hb⟩)
    · exact h.root c hroot
    · obtain ⟨-, d, hd, -⟩ := h.owned a b c ha hb
      exact ⟨d, hd⟩

theorem Tidy.notMem_of_fresh (h : Tidy owns roots m) (hc : m c = none) : c ∉ roots := fun hroot => by
  obtain ⟨b, hb⟩ := h.root c hroot
  cases hc.symm.trans hb

/-- A new block that owns nothing is a new root. -/
theorem Tidy.alloc (h : Tidy owns roots m) (ha : m a = none) (hb : owns b = none) :
    Tidy owns (insert a roots) (m.alloc a b) := by
  have hold : ∀ {x b' y}, m.alloc a b x = some b' → owns b' = some y → m x = some b' := by
    intro x b' y hx hy
    rw [alloc_apply] at hx
    split at hx
    · obtain rfl := Option.some.inj hx
      cases hb.symm.trans hy
    · exact hx
  have hkeep : ∀ {x b'}, m x = some b' → m.alloc a b x = some b' := by
    intro x b' hx
    rw [alloc_apply, if_neg, hx]
    rintro rfl
    cases ha.symm.trans hx
  refine ⟨fun x hx => ?_, fun x b' y hx hy => ?_, fun x b' x' b'' y hx hx' hy hy' => ?_, fun y d hy => ?_⟩
  · rcases hx with rfl | hx
    · exact ⟨b, by rw [alloc_apply, if_pos rfl]⟩
    · obtain ⟨b', hb'⟩ := h.root x hx
      exact ⟨b', hkeep hb'⟩
  · obtain ⟨hroot, d, hd, hleaf⟩ := h.owned x b' y (hold hx hy) hy
    refine ⟨fun hy' => ?_, d, hkeep hd, hleaf⟩
    rcases hy' with rfl | hy'
    · cases ha.symm.trans hd
    · exact hroot hy'
  · exact h.unique x b' x' b'' y (hold hx hy) (hold hx' hy') hy hy'
  · rw [alloc_apply] at hy
    split at hy
    · rename_i heq
      exact .inl (.inl heq)
    · refine (h.held y d hy).imp .inr ?_
      rintro ⟨x, b', hx, hb'⟩
      exact ⟨x, b', hkeep hx, hb'⟩

/-- Writing to a block changes nothing about who owns what, if the block owns what it owned. -/
theorem Tidy.write (h : Tidy owns roots m) (ha : m a = some d) (hb : owns b = owns d) :
    Tidy owns roots (m.alloc a b) := by
  have hback : ∀ {x b'}, m.alloc a b x = some b' → ∃ d', m x = some d' ∧ owns d' = owns b' := by
    intro x b' hx
    rw [alloc_apply] at hx
    split at hx
    · rename_i hxa
      rw [← Option.some.inj hx]
      exact ⟨d, hxa ▸ ha, hb.symm⟩
    · exact ⟨b', hx, rfl⟩
  have hkeep : ∀ {x d'}, m x = some d' → ∃ b', m.alloc a b x = some b' ∧ owns b' = owns d' := by
    intro x d' hx
    by_cases hxa : x = a
    · subst hxa
      obtain rfl := Option.some.inj (ha.symm.trans hx)
      exact ⟨b, by rw [alloc_apply, if_pos rfl], hb⟩
    · exact ⟨d', by rw [alloc_apply, if_neg hxa, hx], rfl⟩
  refine ⟨fun x hx => ?_, fun x b' y hx hy => ?_, fun x b' x' b'' y hx hx' hy hy' => ?_, fun y d' hy => ?_⟩
  · obtain ⟨d', hd'⟩ := h.root x hx
    obtain ⟨b', hb', -⟩ := hkeep hd'
    exact ⟨b', hb'⟩
  · obtain ⟨d', hd', hown⟩ := hback hx
    obtain ⟨hroot, e, he, hleaf⟩ := h.owned x d' y hd' (hown.trans hy)
    obtain ⟨e', he', hown'⟩ := hkeep he
    exact ⟨hroot, e', he', hown'.trans hleaf⟩
  · obtain ⟨d', hd', hown⟩ := hback hx
    obtain ⟨d'', hd'', hown'⟩ := hback hx'
    exact h.unique x d' x' d'' y hd' hd'' (hown.trans hy) (hown'.trans hy')
  · obtain ⟨e, he, -⟩ := hback hy
    refine (h.held y e he).imp_right ?_
    rintro ⟨x, b', hx, hown⟩
    obtain ⟨b'', hb'', hown'⟩ := hkeep hx
    exact ⟨x, b'', hb'', hown'.trans hown⟩

/-- Dropping a root frees it and what it owns, and nothing else. -/
theorem Tidy.drop (h : Tidy owns roots m) (ha : a ∈ roots) (hb : m a = some b) :
    ∃ m', m.drop owns a = some m' ∧ (∀ x, m' x = if x = a ∨ owns b = some x then none else m x) ∧
      Tidy owns (roots \ {a}) m' := by
  have hne : ∀ {y}, owns b = some y → y ≠ a := by
    rintro y hy rfl
    exact (h.owned _ b _ hb hy).1 ha
  obtain ⟨m', hdrop, hm'⟩ : ∃ m', m.drop owns a = some m' ∧
      ∀ x, m' x = if x = a ∨ owns b = some x then none else m x := by
    rw [Memory.drop, hb, Option.bind_some]
    cases hown : owns b with
    | none =>
      refine ⟨_, free_eq_some.2 ⟨⟨b, hb⟩, rfl⟩, fun x => ?_⟩
      simp [Function.update_apply]
    | some y =>
      obtain ⟨-, d, hd, -⟩ := h.owned a b y hb hown
      have hfree : m.free y = some (Function.update m y none) := free_eq_some.2 ⟨⟨d, hd⟩, rfl⟩
      have hstill : Function.update m y none a = some b := by rw [Function.update_of_ne (hne hown).symm, hb]
      refine ⟨Function.update (Function.update m y none) a none, ?_, fun x => ?_⟩
      · rw [free?, hfree, Option.bind_some]
        exact free_eq_some.2 ⟨⟨b, hstill⟩, rfl⟩
      · simp only [Function.update_apply, Option.some.injEq]
        split <;> simp_all [eq_comm]
  have hold : ∀ {x d}, m' x = some d → x ≠ a ∧ owns b ≠ some x ∧ m x = some d := by
    intro x d hx
    rw [hm'] at hx
    split at hx
    · cases hx
    · rename_i hno
      exact ⟨fun h => hno (.inl h), fun h => hno (.inr h), hx⟩
  have hkeep : ∀ {x d}, x ≠ a → owns b ≠ some x → m x = some d → m' x = some d := fun hxa hxb hx => by
    rw [hm', if_neg (by simp [hxa, hxb]), hx]
  refine ⟨m', hdrop, hm', ⟨fun x hx => ?_, fun x b' y hx hy => ?_, fun x b' x' b'' y hx hx' hy hy' => ?_,
    fun y d hy => ?_⟩⟩
  · obtain ⟨b', hb'⟩ := h.root x hx.1
    exact ⟨b', hkeep hx.2 (fun hown => (h.owned a b x hb hown).1 hx.1) hb'⟩
  · obtain ⟨hxa, -, hx⟩ := hold hx
    obtain ⟨hroot, d, hd, hleaf⟩ := h.owned x b' y hx hy
    refine ⟨fun hy' => hroot hy'.1, d, hkeep ?_ (fun hown => hxa (h.unique x b' a b y hx hb hy hown)) hd, hleaf⟩
    rintro rfl
    exact hroot ha
  · exact h.unique x b' x' b'' y (hold hx).2.2 (hold hx').2.2 hy hy'
  · obtain ⟨hya, hyb, hy⟩ := hold hy
    refine (h.held y d hy).imp (fun hroot => ⟨hroot, hya⟩) ?_
    rintro ⟨x, b', hx, hb'⟩
    refine ⟨x, b', hkeep ?_ ?_ hx, hb'⟩
    · rintro rfl
      rw [Option.some.inj (hb.symm.trans hx)] at hyb
      exact hyb hb'
    · intro hown
      obtain ⟨-, d', hd', hleaf⟩ := h.owned a b x hb hown
      rw [Option.some.inj (hd'.symm.trans hx)] at hleaf
      cases hleaf.symm.trans hb'

/-- A root that is assigned a new block owns that one, and the block that it owned is freed. -/
theorem Tidy.assign (h : Tidy owns roots m) (ha : a ∈ roots) {old : β} (hold : m a = some old) (hc : m c = none)
    (hb : owns b = some c) (hd : owns d = none) :
    ∃ m', m.assign owns a b c d = some m' ∧ (∀ x, m' x = if owns old = some x then none
      else if x = a then some b else if x = c then some d else m x) ∧ Tidy owns roots m' := by
  have hac : a ≠ c := by
    rintro rfl
    cases hc.symm.trans hold
  have hne : ∀ {y}, owns old = some y → y ≠ a ∧ y ≠ c := by
    intro y hy
    obtain ⟨hroot, d', hd', -⟩ := h.owned a old y hold hy
    refine ⟨?_, ?_⟩
    · rintro rfl
      exact hroot ha
    · rintro rfl
      cases hc.symm.trans hd'
  obtain ⟨m', hassign, hm'⟩ : ∃ m', m.assign owns a b c d = some m' ∧ ∀ x, m' x = if owns old = some x then none
      else if x = a then some b else if x = c then some d else m x := by
    rw [Memory.assign, hold, Option.bind_some]
    cases hown : owns old with
    | none =>
      refine ⟨_, rfl, fun x => ?_⟩
      simp [alloc_apply]
    | some y =>
      obtain ⟨-, d', hd', -⟩ := h.owned a old y hold hown
      have hlive : (m.alloc c d).alloc a b y = some d' := by
        rw [alloc_apply, if_neg (hne hown).1, alloc_apply, if_neg (hne hown).2, hd']
      refine ⟨_, free_eq_some.2 ⟨⟨d', hlive⟩, rfl⟩, fun x => ?_⟩
      simp only [Function.update_apply, alloc_apply, Option.some.injEq, eq_comm]
  have hback : ∀ {x d'}, m' x = some d' → owns old ≠ some x ∧
      (x = a ∧ d' = b ∨ x = c ∧ d' = d ∨ x ≠ a ∧ x ≠ c ∧ m x = some d') := by
    intro x d' hx
    rw [hm'] at hx
    split at hx
    · cases hx
    · rename_i hno
      refine ⟨hno, ?_⟩
      split at hx
      · rename_i hxa
        exact .inl ⟨hxa, (Option.some.inj hx).symm⟩
      · rename_i hxa
        split at hx
        · rename_i hxc
          exact .inr (.inl ⟨hxc, (Option.some.inj hx).symm⟩)
        · rename_i hxc
          exact .inr (.inr ⟨hxa, hxc, hx⟩)
  have hkeep : ∀ {x d'}, x ≠ a → owns old ≠ some x → m x = some d' → m' x = some d' := by
    intro x d' hxa hxo hx
    have hxc : x ≠ c := by
      rintro rfl
      cases hc.symm.trans hx
    rw [hm', if_neg hxo, if_neg hxa, if_neg hxc, hx]
  have hnew : m' c = some d := by
    rw [hm', if_neg (fun hown => (hne hown).2 rfl), if_neg hac.symm, if_pos rfl]
  have hself : m' a = some b := by
    rw [hm', if_neg (fun hown => (hne hown).1 rfl), if_pos rfl]
  refine ⟨m', hassign, hm', ⟨fun x hx => ?_, fun x b' y hx hy => ?_, fun x b' x' b'' y hx hx' hy hy' => ?_,
    fun y d' hy => ?_⟩⟩
  · by_cases hxa : x = a
    · exact ⟨b, hxa ▸ hself⟩
    · obtain ⟨b', hb'⟩ := h.root x hx
      exact ⟨b', hkeep hxa (fun hown => (h.owned a old x hold hown).1 hx) hb'⟩
  · rcases (hback hx).2 with ⟨rfl, rfl⟩ | ⟨rfl, rfl⟩ | ⟨hxa, -, hx⟩
    · obtain rfl := Option.some.inj (hb.symm.trans hy)
      exact ⟨h.notMem_of_fresh hc, d, hnew, hd⟩
    · cases hd.symm.trans hy
    · obtain ⟨hroot, d', hd', hleaf⟩ := h.owned x b' y hx hy
      refine ⟨hroot, d', hkeep ?_ (fun hown => hxa (h.unique x b' a old y hx hold hy hown)) hd', hleaf⟩
      rintro rfl
      exact hroot ha
  · -- The new block is owned by the root only, as nothing owns a block that is not live.
    have hcase : ∀ {x b'}, m' x = some b' → owns b' = some y → x = a ∧ y = c ∨ y ≠ c ∧ m x = some b' := by
      intro x b' hx hy
      rcases (hback hx).2 with ⟨rfl, rfl⟩ | ⟨rfl, rfl⟩ | ⟨-, -, hx⟩
      · exact .inl ⟨rfl, Option.some.inj (hy.symm.trans hb)⟩
      · cases hd.symm.trans hy
      · refine .inr ⟨?_, hx⟩
        rintro rfl
        obtain ⟨-, d', hd', -⟩ := h.owned x b' y hx hy
        cases hc.symm.trans hd'
    rcases hcase hx hy with ⟨rfl, hyc⟩ | ⟨hyc, hx⟩ <;> rcases hcase hx' hy' with ⟨rfl, hyc'⟩ | ⟨hyc', hx'⟩
    · rfl
    · exact absurd hyc hyc'
    · exact absurd hyc' hyc
    · exact h.unique x b' x' b'' y hx hx' hy hy'
  · obtain ⟨hyo, hy⟩ := hback hy
    rcases hy with ⟨rfl, -⟩ | ⟨rfl, -⟩ | ⟨hya, -, hy⟩
    · exact .inl ha
    · exact .inr ⟨a, b, hself, hb⟩
    · refine (h.held y d' hy).imp_right ?_
      rintro ⟨x, b', hx, hb'⟩
      refine ⟨x, b', hkeep ?_ ?_ hx, hb'⟩
      · rintro rfl
        rw [Option.some.inj (hold.symm.trans hx)] at hyo
        exact hyo hb'
      · intro hown
        obtain ⟨-, d'', hd'', hleaf⟩ := h.owned a old x hold hown
        rw [Option.some.inj (hd''.symm.trans hx)] at hleaf
        cases hleaf.symm.trans hb'

end Memory

end Machine
