import Mathlib.Algebra.Group.Nat.Defs
import Mathlib.Tactic.Common

/-!
# Computations that may fail or panic

A Rust function returning `Result<α, ε>` ends in one of three ways: with a
value, with an error, or in a panic — an index out of bounds, a slice whose ends
cross, a subtraction below zero. An `Outcome` keeps the three apart, so that
"never panics" is a statement about a definition and not a convention about it.

The partial operations of slices are those that may panic: `Outcome.slice`
(`&b[i..j]`), `Outcome.index` (`b[i]`) and `Outcome.sub` (`a - b` on `usize`).
Early returns are `Outcome.okOr` (`.ok_or(e)?`) and `Outcome.ensure`.

A run of a chain of such steps is taken apart by `bind_eq_ok`, and shown free of
panics by `bind_ne_panic`, a loop by `foldlM_ne_panic`.

Where nothing can panic, Lean's own `Except` is `Result`, and `except_bind_eq_ok`
takes a chain of its steps apart.
-/

namespace Rust

/-- How a computation returning a value of `α` or an error of `ε` ends. -/
inductive Outcome (ε α : Type) where
  | ok (a : α)
  | err (e : ε)
  | panic
  deriving DecidableEq, Repr

namespace Outcome

variable {ε α β : Type}

instance : Monad (Outcome ε) where
  pure := ok
  bind x f := match x with
    | ok a => f a
    | err e => err e
    | panic => panic

/-! ## Steps -/

/-- `o.ok_or(e)?` -/
def okOr (o : Option α) (e : ε) : Outcome ε α :=
  match o with
  | some a => ok a
  | none => err e

/-- `if !p { return Err(e) }` -/
def ensure (p : Bool) (e : ε) : Outcome ε Unit :=
  if p then ok () else err e

/-- `a - b` on `usize`. -/
def sub (a b : Nat) : Outcome ε Nat :=
  if b ≤ a then ok (a - b) else panic

/-- `xs[i]` -/
def index (xs : List α) (i : Nat) : Outcome ε α :=
  match xs[i]? with
  | some a => ok a
  | none => panic

/-- `xs.get(i..j)` -/
def range? (xs : List α) (i j : Nat) : Option (List α) :=
  if i ≤ j ∧ j ≤ xs.length then some ((xs.take j).drop i) else none

/-- `&xs[i..j]` -/
def slice (xs : List α) (i j : Nat) : Outcome ε (List α) :=
  match range? xs i j with
  | some ys => ok ys
  | none => panic

/-! ## Taking a run apart -/

@[simp] theorem pure_eq (a : α) : (pure a : Outcome ε α) = ok a := rfl

@[simp] theorem ok_bind (a : α) (f : α → Outcome ε β) : (ok a >>= f) = f a := rfl

@[simp] theorem err_bind (e : ε) (f : α → Outcome ε β) : (err e >>= f) = err e := rfl

@[simp] theorem panic_bind (f : α → Outcome ε β) : ((panic : Outcome ε α) >>= f) = panic := rfl

instance : LawfulMonad (Outcome ε) :=
  .mk' _ (fun x => by cases x <;> rfl) (fun _ _ => rfl) (fun x _ _ => by cases x <;> rfl)

theorem bind_eq_ok {x : Outcome ε α} {f : α → Outcome ε β} {b : β} :
    (x >>= f) = ok b ↔ ∃ a, x = ok a ∧ f a = ok b := by
  cases x <;> simp

/-- A chain of steps does not panic if none of its steps does. -/
theorem bind_ne_panic {x : Outcome ε α} {f : α → Outcome ε β} (hx : x ≠ panic)
    (hf : ∀ a, x = ok a → f a ≠ panic) : (x >>= f) ≠ panic := by
  cases x with
  | ok a => exact hf a rfl
  | err e => simp
  | panic => exact absurd rfl hx

/-- A loop does not panic if none of its rounds does. -/
theorem foldlM_ne_panic {f : β → α → Outcome ε β} (h : ∀ b a, f b a ≠ panic) (xs : List α) (b : β) :
    xs.foldlM f b ≠ panic := by
  induction xs generalizing b with
  | nil => simp
  | cons x xs ih =>
    rw [List.foldlM_cons]
    exact bind_ne_panic (h b x) fun next _ => ih next

@[simp] theorem okOr_some (a : α) (e : ε) : okOr (some a) e = ok a := rfl

@[simp] theorem okOr_none (e : ε) : (okOr none e : Outcome ε α) = err e := rfl

@[simp] theorem ensure_true (e : ε) : ensure true e = ok () := rfl

@[simp] theorem ensure_false (e : ε) : ensure false e = err e := rfl

@[simp] theorem okOr_eq_ok {o : Option α} {e : ε} {a : α} : okOr o e = ok a ↔ o = some a := by
  cases o <;> simp [okOr]

@[simp] theorem okOr_ne_panic (o : Option α) (e : ε) : okOr o e ≠ panic := by
  cases o <;> simp [okOr]

@[simp] theorem ensure_eq_ok {p : Bool} {e : ε} {u : Unit} : ensure p e = ok u ↔ p = true := by
  cases p <;> simp [ensure]

@[simp] theorem ensure_ne_panic (p : Bool) (e : ε) : ensure p e ≠ panic := by
  cases p <;> simp [ensure]

@[simp] theorem sub_eq_ok {a b c : Nat} : (sub a b : Outcome ε Nat) = ok c ↔ b ≤ a ∧ a - b = c := by
  unfold sub
  split <;> simp_all [Nat.not_le.2]

theorem sub_of_le {a b : Nat} (h : b ≤ a) : (sub a b : Outcome ε Nat) = ok (a - b) :=
  if_pos h

theorem range?_of_le {xs : List α} {i j : Nat} (hij : i ≤ j) (hj : j ≤ xs.length) :
    range? xs i j = some ((xs.take j).drop i) :=
  if_pos ⟨hij, hj⟩

theorem slice_of_le {xs : List α} {i j : Nat} (hij : i ≤ j) (hj : j ≤ xs.length) :
    (slice xs i j : Outcome ε (List α)) = ok ((xs.take j).drop i) := by
  rw [slice, range?_of_le hij hj]

/-! ### Reading on from an index -/

theorem lt_of_drop_eq_cons {xs ys : List α} {i : Nat} {x : α} (h : xs.drop i = x :: ys) :
    i < xs.length := by
  by_contra hi
  rw [List.drop_eq_nil_of_le (Nat.not_lt.1 hi)] at h
  cases h

theorem drop_add_of_drop_eq_append {xs ys zs : List α} {i : Nat} (h : xs.drop i = ys ++ zs) :
    xs.drop (i + ys.length) = zs := by
  rw [← List.drop_drop, h, List.drop_left]

theorem drop_succ_of_drop_eq_cons {xs ys : List α} {i : Nat} {x : α} (h : xs.drop i = x :: ys) :
    xs.drop (i + 1) = ys :=
  @drop_add_of_drop_eq_append _ _ [x] _ _ h

theorem index_of_drop {xs ys : List α} {i : Nat} {x : α} (h : xs.drop i = x :: ys) :
    (index xs i : Outcome ε α) = ok x := by
  have hx := congrArg List.head? h
  rw [List.head?_drop] at hx
  rw [index, hx]
  rfl

/-- `xs.get(i..i + n)` is `ys`, of length `n`, if `xs` goes on with `ys` at `i`. -/
theorem range?_eq_some {xs ys : List α} {i j : Nat} (hi : i ≤ xs.length)
    (hj : j = i + ys.length) : range? xs i j = some ys ↔ ys <+: xs.drop i := by
  subst hj
  have htake : (xs.take (i + ys.length)).drop i = (xs.drop i).take ys.length := by
    rw [List.drop_take, Nat.add_sub_cancel_left]
  unfold range?
  split
  · rename_i h
    rw [htake, Option.some.injEq, List.prefix_iff_eq_take, eq_comm]
  · rename_i h
    refine ⟨fun h' => absurd h' (by simp), fun hp => absurd ⟨by omega, ?_⟩ h⟩
    have := hp.length_le
    rw [List.length_drop] at this
    omega

/-- A slice between two cuts of a list is what lies between them. -/
theorem slice_append (xs ys zs : List α) {i j : Nat} (hi : i = xs.length)
    (hj : j = xs.length + ys.length) :
    (slice (xs ++ (ys ++ zs)) i j : Outcome ε (List α)) = ok ys := by
  subst hi hj
  rw [slice_of_le (by omega) (by simp), List.take_length_add_append,
    List.take_left, List.drop_left]

end Outcome

/-! ## Results that cannot panic -/

section Except

variable {ε α β : Type}

/-- `o.ok_or_else(|| e)` -/
def okOrElse (o : Option α) (e : ε) : Except ε α :=
  match o with
  | some a => .ok a
  | none => .error e

/-- `if p { Ok(()) } else { Err(e) }` -/
def check (p : Bool) (e : ε) : Except ε Unit :=
  if p then .ok () else .error e

theorem except_bind_eq_ok {x : Except ε α} {f : α → Except ε β} {b : β} :
    (x >>= f) = .ok b ↔ ∃ a, x = .ok a ∧ f a = .ok b := by
  cases x <;> simp [bind, Except.bind]

theorem except_bind_eq_error {x : Except ε α} {f : α → Except ε β} {e : ε} :
    (x >>= f) = .error e ↔ x = .error e ∨ ∃ a, x = .ok a ∧ f a = .error e := by
  cases x <;> simp [bind, Except.bind]

@[simp] theorem except_ok_bind (a : α) (f : α → Except ε β) : (Except.ok a >>= f) = f a := rfl

@[simp] theorem except_error_bind (e : ε) (f : α → Except ε β) :
    (Except.error e >>= f) = .error e := rfl

@[simp] theorem okOrElse_eq_ok {o : Option α} {e : ε} {a : α} : okOrElse o e = .ok a ↔ o = some a := by
  cases o <;> simp [okOrElse]

@[simp] theorem okOrElse_eq_error {o : Option α} {e e' : ε} :
    okOrElse o e = .error e' ↔ o = none ∧ e = e' := by
  cases o <;> simp [okOrElse]

@[simp] theorem check_eq_ok {p : Bool} {e : ε} {u : Unit} : check p e = .ok u ↔ p = true := by
  cases p <;> simp [check]

@[simp] theorem check_eq_error {p : Bool} {e e' : ε} :
    check p e = .error e' ↔ p = false ∧ e = e' := by
  cases p <;> simp [check]

@[simp] theorem mapError_eq_ok {ε' : Type} {x : Except ε α} {f : ε → ε'} {a : α} :
    x.mapError f = .ok a ↔ x = .ok a := by
  cases x <;> simp [Except.mapError]

@[simp] theorem mapError_eq_error {ε' : Type} {x : Except ε α} {f : ε → ε'} {e' : ε'} :
    x.mapError f = .error e' ↔ ∃ e, x = .error e ∧ f e = e' := by
  cases x <;> simp [Except.mapError]

/-- A loop of checks passes if each of them does. -/
theorem forM_check_eq_ok {xs : List α} {p : α → Bool} {e : α → ε} {u : PUnit} :
    (xs.forM fun x => check (p x) (e x)) = .ok u ↔ ∀ x ∈ xs, p x = true := by
  induction xs with
  | nil => simp [List.forM, pure, Except.pure]
  | cons x xs ih =>
    show (check (p x) (e x) >>= fun _ => xs.forM fun x => check (p x) (e x)) = _ ↔ _
    simp only [except_bind_eq_ok, check_eq_ok, ih, exists_const, List.forall_mem_cons]

end Except

end Rust
