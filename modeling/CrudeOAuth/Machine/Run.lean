import Mathlib.Data.List.Induction
import Mathlib.Tactic.Common

/-!
# Runs of a machine

A machine has states in `σ` and steps labelled in `ι`: `step s i s'` says that the
label `i` may lead from `s` to `s'`. A `Run` is a finite sequence of steps, each
from where the last one ended, with the list of the steps taken.

* `Run.invariant`: what holds at first, and is kept by every step under a side
  condition, holds throughout the runs whose steps meet the condition.
* `Run.history`: what holds of a run is kept by a step after it.
* `Run.forall_after`: once it holds, what is kept by every step holds ever after.
* `Run.of_exec`: the labels of a machine whose steps are computed make a run.
* `Run.exists_turn`: what holds at some time but not at first came to hold in a step
  before that time.
* `Run.project`: a run is one of another machine as well, if each of its steps is one
  there, or none.
-/

namespace Machine

variable {σ ι : Type}

/-- A step of a run. -/
structure Taken (σ ι : Type) where
  before : σ
  label : ι
  after : σ

/-- The step as one of another machine, if it has a label there. -/
def Taken.project {σ' ι' : Type} (view : σ → σ') (label : Taken σ ι → Option ι') (t : Taken σ ι) :
    Option (Taken σ' ι') :=
  (label t).map fun i => ⟨view t.before, i, view t.after⟩

/-- The steps since the last one of a kind, from that step on. -/
def since (p : Taken σ ι → Bool) (tr : List (Taken σ ι)) : List (Taken σ ι) :=
  tr.foldl (fun acc t => if p t then [t] else acc ++ [t]) []

theorem since_append (p : Taken σ ι → Bool) (tr : List (Taken σ ι)) (t : Taken σ ι) :
    since p (tr ++ [t]) = if p t then [t] else since p tr ++ [t] := by
  rw [since, List.foldl_append]
  rfl

theorem since_suffix (p : Taken σ ι → Bool) (tr : List (Taken σ ι)) : since p tr <:+ tr := by
  induction tr using List.reverseRecOn with
  | nil => exact List.suffix_refl _
  | append_singleton tr t ih =>
    rw [since_append]
    split
    · exact List.suffix_append _ _
    · obtain ⟨pre, hpre⟩ := ih
      exact ⟨pre, by rw [← List.append_assoc, hpre]⟩

theorem since_append_of_forall {p : Taken σ ι → Bool} {post : List (Taken σ ι)} (tr : List (Taken σ ι))
    (h : ∀ t ∈ post, p t = false) : since p (tr ++ post) = since p tr ++ post := by
  induction post using List.reverseRecOn with
  | nil => rw [List.append_nil, List.append_nil]
  | append_singleton post t ih =>
    rw [List.forall_mem_append] at h
    rw [← List.append_assoc, since_append, h.2 t (List.mem_singleton_self _), ih h.1, List.append_assoc]
    rfl

inductive Run (step : σ → ι → σ → Prop) : σ → List (Taken σ ι) → σ → Prop
  | nil {s : σ} : Run step s [] s
  | cons {s s' s'' : σ} {i : ι} {tr : List (Taken σ ι)} (h : step s i s') (hrun : Run step s' tr s'') :
    Run step s (⟨s, i, s'⟩ :: tr) s''

/-- The steps that a list of labels leads through, if each of them is possible. -/
def exec (step : σ → ι → Option σ) : σ → List ι → Option (List (Taken σ ι) × σ)
  | s, [] => some ([], s)
  | s, i :: is => do
    let s' ← step s i
    let (tr, s'') ← exec step s' is
    return (⟨s, i, s'⟩ :: tr, s'')

namespace Run

theorem of_exec {next : σ → ι → Option σ} {s s' : σ} {is : List ι} {tr : List (Taken σ ι)}
    (h : exec next s is = some (tr, s')) : Run (fun s i s' => next s i = some s') s tr s' := by
  induction is generalizing s tr with
  | nil =>
    cases h
    exact .nil
  | cons i is ih =>
    obtain ⟨s₁, hstep, h⟩ := Option.bind_eq_some_iff.1 h
    obtain ⟨⟨tr₁, s₂⟩, hexec, h⟩ := Option.bind_eq_some_iff.1 h
    cases h
    exact .cons hstep (ih hexec)

theorem labels_of_exec {next : σ → ι → Option σ} {s s' : σ} {is : List ι} {tr : List (Taken σ ι)}
    (h : exec next s is = some (tr, s')) : tr.map Taken.label = is := by
  induction is generalizing s tr with
  | nil =>
    cases h
    rfl
  | cons i is ih =>
    obtain ⟨s₁, -, h⟩ := Option.bind_eq_some_iff.1 h
    obtain ⟨⟨tr₁, s₂⟩, hexec, h⟩ := Option.bind_eq_some_iff.1 h
    cases h
    rw [List.map_cons, ih hexec]

variable {step : σ → ι → σ → Prop} {s s' s'' : σ} {tr pre post : List (Taken σ ι)} {t : Taken σ ι}

theorem step_of_mem (h : Run step s tr s') (ht : t ∈ tr) : step t.before t.label t.after := by
  induction h with
  | nil => cases ht
  | cons h _ ih =>
    rcases List.mem_cons.1 ht with rfl | ht
    · exact h
    · exact ih ht

theorem mono {step' : σ → ι → σ → Prop} (hstep : ∀ s i s', step s i s' → step' s i s') (h : Run step s tr s') :
    Run step' s tr s' := by
  induction h with
  | nil => exact .nil
  | cons h _ ih => exact .cons (hstep _ _ _ h) ih

theorem append_iff : Run step s (pre ++ post) s'' ↔ ∃ s', Run step s pre s' ∧ Run step s' post s'' := by
  constructor
  · intro h
    induction pre generalizing s with
    | nil => exact ⟨s, .nil, h⟩
    | cons t pre ih =>
      cases h with
      | cons h hrun =>
        obtain ⟨s', h1, h2⟩ := ih hrun
        exact ⟨s', .cons h h1, h2⟩
  · rintro ⟨s', h1, h2⟩
    induction h1 with
    | nil => exact h2
    | cons h _ ih => exact .cons h (ih h2)

/-- A run is cut at a step of it. -/
theorem of_append_cons (h : Run step s (pre ++ t :: post) s'') :
    Run step s pre t.before ∧ step t.before t.label t.after ∧ Run step t.after post s'' := by
  obtain ⟨s', h1, h2⟩ := append_iff.1 h
  cases h2 with
  | cons hstep hrun => exact ⟨h1, hstep, hrun⟩

/-- An invariant of the steps that meet a condition is an invariant of the runs that
    consist of such steps. -/
theorem invariant {Inv : σ → Prop} {ok : σ → ι → Prop}
    (hstep : ∀ s i s', step s i s' → ok s i → Inv s → Inv s') (h : Run step s tr s')
    (hok : ∀ t ∈ tr, ok t.before t.label) (h0 : Inv s) : Inv s' ∧ ∀ t ∈ tr, Inv t.before := by
  induction h with
  | nil => exact ⟨h0, by simp⟩
  | cons h _ ih =>
    obtain ⟨hhead, htail⟩ := List.forall_mem_cons.1 hok
    obtain ⟨hlast, hall⟩ := ih htail (hstep _ _ _ h hhead h0)
    exact ⟨hlast, List.forall_mem_cons.2 ⟨h0, hall⟩⟩

/-- What holds of a state and of the steps that led to it is shown step by step. -/
theorem history {P : List (Taken σ ι) → σ → Prop} (h0 : P [] s)
    (hstep : ∀ tr s₁ i s₂, Run step s tr s₁ → P tr s₁ → step s₁ i s₂ → P (tr ++ [⟨s₁, i, s₂⟩]) s₂)
    (h : Run step s tr s') : P tr s' := by
  induction tr using List.reverseRecOn generalizing s' with
  | nil =>
    cases h
    exact h0
  | append_singleton tr t ih =>
    obtain ⟨s₁, hrun, hlast⟩ := append_iff.1 h
    cases hlast with
    | cons hnext hnil =>
      cases hnil
      exact hstep tr _ _ _ hrun (ih hrun) hnext

/-- What every step keeps holds after each step in which it came to hold. -/
theorem forall_after {Q : σ → Prop} (hkeep : ∀ s i s', step s i s' → Q s → Q s')
    (h : Run step s (pre ++ t :: post) s'') (ht : Q t.after) : ∀ t' ∈ post, Q t'.before := by
  have hstep : ∀ s i s', step s i s' → True → Q s → Q s' := fun s i s' h _ => hkeep s i s' h
  exact ((of_append_cons h).2.2.invariant hstep (fun _ _ => trivial) ht).2

/-- What does not hold at first, but before some step, came to hold in an earlier one. -/
theorem exists_turn {Q : σ → Prop} (h : Run step s tr s') (h0 : ¬Q s) (h1 : Q s') :
    ∃ pre t post, tr = pre ++ t :: post ∧ ¬Q t.before ∧ Q t.after := by
  induction h with
  | nil => exact absurd h1 h0
  | @cons s s' s'' i tr h _ ih =>
    by_cases hs' : Q s'
    · exact ⟨[], _, tr, rfl, h0, hs'⟩
    · obtain ⟨pre, t, post, rfl, ht⟩ := ih hs' h1
      exact ⟨_ :: pre, t, post, rfl, ht⟩

variable {σ' ι' : Type} {step' : σ' → ι' → σ' → Prop} {view : σ → σ'} {label : Taken σ ι → Option ι'}

/-- A run as one of another machine, which sees the states as `view` and takes part in the
    steps that have a label there. -/
theorem project (hstep : ∀ t : Taken σ ι, step t.before t.label t.after →
      (∀ i, label t = some i → step' (view t.before) i (view t.after)) ∧
        (label t = none → view t.after = view t.before)) (h : Run step s tr s') :
    Run step' (view s) (tr.filterMap (Taken.project view label)) (view s') := by
  induction h with
  | nil => exact .nil
  | @cons s s' s'' i tr h _ ih =>
    obtain ⟨htaken, hsame⟩ := hstep ⟨s, i, s'⟩ h
    cases hlabel : label ⟨s, i, s'⟩ with
    | none =>
      rw [List.filterMap_cons_none (by simp [Taken.project, hlabel]), ← hsame hlabel]
      exact ih
    | some j =>
      rw [List.filterMap_cons_some (by rw [Taken.project, hlabel]; rfl)]
      exact .cons (htaken j hlabel) ih

end Run

end Machine
