import Mathlib

/-!
# Maps with delete marks

A map that never forgets a key: deleting a key changes its value by `mark`. What is at a key depends
on the operations on that key only: the value of the last `set`, marked by the deletions after it.
-/

namespace Lib

open Function

variable {K V : Type} [DecidableEq K]

/-- A map from keys to values. -/
abbrev MarkMap (K V : Type) := K → Option V

namespace MarkMap

/-- `k` has value `v`. -/
def set (m : MarkMap K V) (k : K) (v : V) : MarkMap K V := Function.update m k (some v)

/-- The value of `k` is marked. -/
def delete (mark : V → V) (m : MarkMap K V) (k : K) : MarkMap K V :=
  Function.update m k ((m k).map mark)

@[simp] theorem set_self (m : MarkMap K V) (k : K) (v : V) : m.set k v k = some v :=
  update_self ..

@[simp] theorem set_of_ne (m : MarkMap K V) {k k' : K} (h : k' ≠ k) (v : V) : m.set k v k' = m k' :=
  update_of_ne h ..

@[simp] theorem delete_self (mark : V → V) (m : MarkMap K V) (k : K) :
    m.delete mark k k = (m k).map mark :=
  update_self ..

@[simp] theorem delete_of_ne (mark : V → V) (m : MarkMap K V) {k k' : K} (h : k' ≠ k) :
    m.delete mark k k' = m k' :=
  update_of_ne h ..

theorem delete_eq_self {mark : V → V} {m : MarkMap K V} {k : K} (h : ∀ v, m k = some v → mark v = v) :
    m.delete mark k = m := by
  unfold delete
  cases hk : m k with
  | none => rw [Option.map_none, ← hk, update_eq_self]
  | some v => rw [Option.map_some, h v hk, ← hk, update_eq_self]

end MarkMap

end Lib
