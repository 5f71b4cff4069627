import Mathlib.Algebra.Group.Int.Defs
import Mathlib.Algebra.Group.Nat.Defs
import Mathlib.Tactic.Common

/-!
# Integers

Saturating arithmetic of `i64`, and the reading of decimal numbers.

`parseI64` is `str::parse::<i64>`: a digit is multiplied in and then added or, after
a minus sign, subtracted, each with its own overflow check.
-/

namespace Rust

/-- `a.saturating_add(b)` -/
def saturatingAdd (a b : Int64) : Int64 := Int64.ofIntClamp (a.toInt + b.toInt)

/-- `a.saturating_sub(b)` -/
def saturatingSub (a b : Int64) : Int64 := Int64.ofIntClamp (a.toInt - b.toInt)

theorem toInt_ofIntClamp {i : Int} : (Int64.ofIntClamp i).toInt = max (-2 ^ 63) (min (2 ^ 63 - 1) i) := by
  have hmax := Int64.toInt_maxValue
  have hmin := Int64.toInt_minValue
  unfold Int64.ofIntClamp
  split
  · split
    · rw [Int64.toInt_ofIntLE]
      omega
    · omega
  · omega

theorem toInt_saturatingAdd (a b : Int64) :
    (saturatingAdd a b).toInt = max (-2 ^ 63) (min (2 ^ 63 - 1) (a.toInt + b.toInt)) := toInt_ofIntClamp

theorem toInt_saturatingSub (a b : Int64) :
    (saturatingSub a b).toInt = max (-2 ^ 63) (min (2 ^ 63 - 1) (a.toInt - b.toInt)) := toInt_ofIntClamp

/-- Saturating addition grows with what is added, -/
theorem saturatingAdd_le {a b b' : Int64} (h : b ≤ b') : saturatingAdd a b ≤ saturatingAdd a b' := by
  rw [Int64.le_iff_toInt_le] at h ⊢
  rw [toInt_saturatingAdd, toInt_saturatingAdd]
  omega

/-- and saturating subtraction falls with what is subtracted. -/
theorem saturatingSub_le {a b b' : Int64} (h : b ≤ b') : saturatingSub a b' ≤ saturatingSub a b := by
  rw [Int64.le_iff_toInt_le] at h ⊢
  rw [toInt_saturatingSub, toInt_saturatingSub]
  omega

theorem toInt_max (a b : Int64) : (max a b).toInt = max a.toInt b.toInt := by
  have h : max a b = if a ≤ b then b else a := rfl
  rw [h]
  split
  · rename_i hle
    rw [Int64.le_iff_toInt_le] at hle
    omega
  · rename_i hle
    rw [Int64.le_iff_toInt_le] at hle
    omega

/-- `n as i64`, where it does not wrap -/
theorem toInt_toInt64 {n : UInt64} (h : n.toNat < 2 ^ 63) : n.toInt64.toInt = n.toNat := by
  have hbits : n.toBitVec.toNat = n.toNat := rfl
  have hint : n.toInt64.toInt = n.toBitVec.toInt := rfl
  rw [hint, BitVec.toInt_eq_toNat_of_lt (by omega), hbits]

/-- `std::num::IntErrorKind`, as far as reading an `i64` can fail. -/
inductive ParseIntError
  | empty
  | invalidDigit
  | posOverflow
  | negOverflow
  deriving DecidableEq, Repr

/-- `c.to_digit(10)` -/
def toDigit (c : Char) : Option Nat :=
  if '0' ≤ c ∧ c ≤ '9' then some (c.toNat - '0'.toNat) else none

/-- The value fits into an `i64`. -/
def fitsI64 (i : Int) : Bool := -2 ^ 63 ≤ i && i < 2 ^ 63

/-- The digits that are left, after those read as `result`. -/
def parseDigits (neg : Bool) : List Char → Int → Except ParseIntError Int
  | [], result => .ok result
  | c :: rest, result =>
    let overflow := if neg then ParseIntError.negOverflow else .posOverflow
    match toDigit c with
    | none => .error .invalidDigit
    | some x =>
      if !fitsI64 (result * 10) then .error overflow
      else
        let result := if neg then result * 10 - x else result * 10 + x
        if !fitsI64 result then .error overflow else parseDigits neg rest result

/-- The number written by a text, which may start with a sign. -/
def parseSigned : List Char → Except ParseIntError Int
  | [] => .error .empty
  | ['+'] | ['-'] => .error .invalidDigit
  | '+' :: digits => parseDigits false digits 0
  | '-' :: digits => parseDigits true digits 0
  | digits => parseDigits false digits 0

/-- `s.parse::<i64>()` -/
def parseI64 (s : String) : Except ParseIntError Int64 := (parseSigned s.toList).map Int64.ofInt

end Rust
