import Infinity.Fst.Reader

/-! # Bounds of a walk

`CompareBytes` compares keys as byte strings, in the order of the keys. A bound at the end of a walk
is exceeded by everything behind a key that exceeds it.

* `Bound.admitsAbove`, `Bound.admitsBelow`: the keys that a lower or an upper bound lets through.
* `Bound.exceededBy_eq`, `Bound.admitsBelow_of_le`: the check in `Next`.
-/

namespace Infinity.Fst

open Foundations

theorem compareBytes_cons (a b : UInt8) (x y : Bytes) : compareBytes (a :: x) (b :: y) =
    if a < b then .lt else if b < a then .gt else compareBytes x y := by
  rw [compareBytes, memcmp]
  by_cases hab : a < b
  · simp [hab]
  · by_cases hba : b < a <;> simp [hab, hba, compareBytes]

/-- `CompareBytes` is the order of byte strings. -/
theorem compareBytes_eq (x y : Bytes) : (compareBytes x y = .lt ↔ x < y) ∧
    (compareBytes x y = .gt ↔ y < x) := by
  induction x generalizing y with
  | nil => cases y <;> simp [compareBytes, memcmp]
  | cons a x ih =>
    cases y with
    | nil => simp [compareBytes, memcmp]
    | cons b y =>
      have hasymm : a < b → ¬ b < a := fun h => Std.not_lt.mpr (Std.le_of_lt h)
      rw [compareBytes_cons, List.cons_lt_cons_iff, List.cons_lt_cons_iff]
      by_cases hab : a < b
      · have hne : b ≠ a := fun h => hasymm hab (h ▸ hab)
        simp [hab, hasymm hab, hne]
      · by_cases hba : b < a
        · have hne : a ≠ b := fun h => hab (h ▸ hba)
          simp [hab, hba, hne]
        · obtain rfl : a = b := Std.le_antisymm (Std.not_lt.mp hba) (Std.not_lt.mp hab)
          simp [ih y]

/-! ## Bounds -/

namespace Bound

def admitsAbove (bound : Bound) (k : Bytes) : Bool :=
  match bound.ty with
  | .unbounded => true
  | .included => decide (bound.key ≤ k)
  | .excluded => decide (bound.key < k)

def admitsBelow (bound : Bound) (k : Bytes) : Bool :=
  match bound.ty with
  | .unbounded => true
  | .included => decide (k ≤ bound.key)
  | .excluded => decide (k < bound.key)

variable {bound : Bound} {k k' : Bytes}

/-- The check in `Next` refuses the keys that the bound does not let through. -/
theorem exceededBy_eq : bound.exceededBy k = !bound.admitsBelow k := by
  unfold exceededBy admitsBelow
  cases bound.ty with
  | unbounded => rfl
  | included =>
    rw [← decide_not]
    exact decide_eq_decide.mpr ((compareBytes_eq k bound.key).2.trans Std.not_le.symm)
  | excluded =>
    rw [← decide_not]
    exact decide_eq_decide.mpr (not_congr (compareBytes_eq k bound.key).1)

/-- What lies before a key that the bound lets through is let through. -/
theorem admitsBelow_of_le (h : bound.admitsBelow k') (hle : k ≤ k') : bound.admitsBelow k := by
  unfold admitsBelow at h ⊢
  cases hty : bound.ty with
  | unbounded => rfl
  | included =>
    rw [hty] at h
    exact decide_eq_true (Std.le_trans hle (of_decide_eq_true h))
  | excluded =>
    rw [hty] at h
    exact decide_eq_true (Std.lt_of_le_of_lt hle (of_decide_eq_true h))

end Bound

end Infinity.Fst
