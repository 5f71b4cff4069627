import CrudeOAuth.Machine.Run
import Mathlib.Data.Nat.Init
import Mathlib.Order.MinMax
import Mathlib.Order.Nat

/-!
# Endless runs

An `Endless` run goes on forever, and up to any time it is a `Run` (`Endless.run_upTo`). It is
fair to the steps of a kind if these are taken again and again, provided that they are possible
again and again (`Endless.Fair`).

* `Endless.exists_turn`: what holds at some time but not at a later one ceases to hold in a
  step in between.
* `Endless.Fair.exists_not`: what fair steps bring closer to its end, and no others delay,
  does not last.
* `Run.forever`: a run that ends where a step leads back to goes on forever with that step,
  which is fair to all the steps that are not possible there.
-/

namespace Machine

variable {σ ι : Type} {step : σ → ι → σ → Prop} {s s' : σ} {i : ι} {tr : List (Taken σ ι)}

structure Endless (step : σ → ι → σ → Prop) (s : σ) where
  state : Nat → σ
  label : Nat → ι
  state_zero : state 0 = s
  step : ∀ n, step (state n) (label n) (state (n + 1))

/-- A step with such a label is possible. -/
def Able (step : σ → ι → σ → Prop) (mine : ι → Prop) (s : σ) : Prop :=
  ∃ i s', mine i ∧ step s i s'

namespace Endless

variable (e : Endless step s) {mine : ι → Prop} {P : σ → Prop} {n k : Nat}

/-- The steps before a time. -/
def upTo (n : Nat) : List (Taken σ ι) := (List.range n).map fun k => ⟨e.state k, e.label k, e.state (k + 1)⟩

/-- If such steps are possible again and again, they are taken again and again. -/
def Fair (mine : ι → Prop) : Prop :=
  (∀ n, ∃ k ≥ n, Able step mine (e.state k)) → ∀ n, ∃ k ≥ n, mine (e.label k)

theorem run_upTo (n : Nat) : Run step s (e.upTo n) (e.state n) := by
  induction n with
  | zero =>
    rw [e.state_zero]
    exact .nil
  | succ n ih =>
    rw [upTo, List.range_succ, List.map_append]
    exact Run.append_iff.2 ⟨e.state n, ih, .cons (e.step n) .nil⟩

theorem able_of_label (h : mine (e.label n)) : Able step mine (e.state n) := ⟨_, _, h, e.step n⟩

variable {e}

/-- What holds at a time, but no longer at a later one, ceases to hold in a step. -/
theorem exists_turn (hk : n ≤ k) (hn : P (e.state n)) (hnot : ¬P (e.state k)) :
    ∃ j ≥ n, P (e.state j) ∧ ¬P (e.state (j + 1)) := by
  induction k, hk using Nat.le_induction with
  | base => exact absurd hn hnot
  | succ k hk ih =>
    by_cases hP : P (e.state k)
    · exact ⟨k, hk, hP, hnot⟩
    · exact ih hP

/-- Something ends if no step takes it away from its end, those of a kind take it closer, and,
    as long as it goes on, these are possible at some time. -/
theorem Fair.exists_not (hfair : e.Fair mine) (P : σ → Prop) (rank : σ → Nat)
    (hrank : ∀ n, P (e.state n) → rank (e.state (n + 1)) ≤ rank (e.state n) ∧
      (mine (e.label n) → rank (e.state (n + 1)) < rank (e.state n)))
    (hable : ∀ n, (∀ k ≥ n, P (e.state k)) → ∃ k ≥ n, Able step mine (e.state k)) (n : Nat) :
    ∃ k ≥ n, ¬P (e.state k) := by
  by_contra hlasts
  push Not at hlasts
  have htaken : ∀ k, ∃ j ≥ k, mine (e.label j) := by
    refine hfair fun k => ?_
    obtain ⟨j, hj, h⟩ := hable (max n k) fun j hj => hlasts j (le_of_max_le_left hj)
    exact ⟨j, le_of_max_le_right hj, h⟩
  have hle : ∀ k j, n ≤ k → k ≤ j → rank (e.state j) ≤ rank (e.state k) := by
    intro k j hk hj
    induction j, hj using Nat.le_induction with
    | base => exact Nat.le_refl _
    | succ j hj ih => exact ((hrank j (hlasts j (hk.trans hj))).1).trans ih
  -- From any time on there is one at which the rank is less.
  have hless : ∀ r k, n ≤ k → rank (e.state k) = r → False := by
    intro r
    induction r using Nat.strongRecOn with
    | ind r ih =>
      intro k hk hr
      obtain ⟨j, hj, hmine⟩ := htaken k
      have hlt := (hrank j (hlasts j (hk.trans hj))).2 hmine
      exact ih (rank (e.state (j + 1))) (hr ▸ hlt.trans_le (hle k j hk hj)) (j + 1) (by omega) rfl
  exact hless _ n (Nat.le_refl n) rfl

end Endless

/-! ## Going on with one step -/

/-- Where a run is at a time; it stays at its end. -/
def Run.stateAt (tr : List (Taken σ ι)) (s' : σ) (n : Nat) : σ := (tr[n]?.map Taken.before).getD s'

/-- The label of its step at a time, which is `i` after its end. -/
def Run.labelAt (tr : List (Taken σ ι)) (i : ι) (n : Nat) : ι := (tr[n]?.map Taken.label).getD i

theorem Run.stateAt_zero (hrun : Run step s tr s') : stateAt tr s' 0 = s := by
  cases hrun <;> rfl

theorem Run.stateAt_of_le {n : Nat} (hn : tr.length ≤ n) : stateAt tr s' n = s' := by
  rw [stateAt, List.getElem?_eq_none hn]
  rfl

theorem Run.step_stateAt (hrun : Run step s tr s') (hloop : step s' i s') (n : Nat) :
    step (stateAt tr s' n) (labelAt tr i n) (stateAt tr s' (n + 1)) := by
  induction hrun generalizing n with
  | nil => exact hloop
  | cons h hrun ih =>
    cases n with
    | zero =>
      have hnext := hrun.stateAt_zero
      rw [stateAt] at hnext
      rw [stateAt, labelAt, stateAt, List.getElem?_cons_zero, List.getElem?_cons_succ, hnext]
      exact h
    | succ n =>
      rw [stateAt, labelAt, stateAt, List.getElem?_cons_succ, List.getElem?_cons_succ]
      exact ih hloop n

/-- The run, and then one step again and again. -/
def Run.forever (hrun : Run step s tr s') (hloop : step s' i s') : Endless step s where
  state := stateAt tr s'
  label := labelAt tr i
  state_zero := hrun.stateAt_zero
  step := hrun.step_stateAt hloop

theorem Run.fair_forever {mine : ι → Prop} (hrun : Run step s tr s') (hloop : step s' i s')
    (h : ¬Able step mine s') : (hrun.forever hloop).Fair mine := by
  intro hable
  obtain ⟨k, hk, hable⟩ := hable tr.length
  have hstate : (hrun.forever hloop).state k = s' := stateAt_of_le hk
  rw [hstate] at hable
  exact absurd hable h

end Machine
