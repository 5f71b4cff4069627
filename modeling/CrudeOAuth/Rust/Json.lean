import Mathlib.Algebra.Ring.Rat
import Mathlib.Tactic.Common

/-!
# JSON values

The values of `serde_json` and the accessors they are read with. An accessor is
`none` on a value of another shape, so reading a member through `get` and an
accessor does not tell a missing member from one of the wrong type.

Numbers are kept as `serde_json` keeps them. A `float` is the rational number that
a finite `f64` stands for.
-/

namespace Rust.Json

/-- `serde_json::Number`. A `negInt` is always less than zero. -/
inductive Number
  | posInt (n : UInt64)
  | negInt (i : Int64)
  | float (q : Rat)
  deriving DecidableEq

inductive Value
  | null
  | bool (b : Bool)
  | number (n : Number)
  | string (s : String)
  | array (xs : List Value)
  | object (members : List (String × Value))

namespace Value

/-- `v.get(key)`: members are looked up in objects only. -/
def get (v : Value) (key : String) : Option Value :=
  match v with
  | object members => members.lookup key
  | _ => none

def asObject : Value → Option (List (String × Value))
  | object members => some members
  | _ => none

def asArray : Value → Option (List Value)
  | array xs => some xs
  | _ => none

def asStr : Value → Option String
  | string s => some s
  | _ => none

def asI64 : Value → Option Int64
  | number (.posInt n) => if n.toNat < 2 ^ 63 then some n.toInt64 else none
  | number (.negInt i) => some i
  | _ => none

def asU64 : Value → Option UInt64
  | number (.posInt n) => some n
  | _ => none

/-- `v.as_f64()` of a number that is not an integer. -/
def asFloat : Value → Option Rat
  | number (.float q) => some q
  | _ => none

theorem asObject_eq_some {v : Value} {members : List (String × Value)} :
    v.asObject = some members ↔ v = object members := by
  cases v <;> simp [asObject]

theorem asStr_eq_some {v : Value} {s : String} : v.asStr = some s ↔ v = string s := by
  cases v <;> simp [asStr]

theorem bind_asStr_eq_some {v : Option Value} {s : String} :
    v.bind asStr = some s ↔ v = some (string s) := by
  simp [Option.bind_eq_some_iff, asStr_eq_some]

/-- The strings among some values. -/
theorem mem_filterMap_asStr {xs : List Value} {s : String} :
    s ∈ xs.filterMap asStr ↔ string s ∈ xs := by
  simp [List.mem_filterMap, asStr_eq_some]

end Value

/-- `q.round() as i64`: to the nearest integer, away from zero where two are as near,
    and into the range of `i64`. -/
def roundToI64 (q : Rat) : Int64 :=
  Int64.ofIntClamp (if 0 ≤ q then (q + 1 / 2).floor else (q - 1 / 2).ceil)

end Rust.Json
