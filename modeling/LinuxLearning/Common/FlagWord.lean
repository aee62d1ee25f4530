-- SUMMARY: Words of flags: which flags a union has, and what masks leave of disjoint ones.
import Mathlib.Data.Nat.Notation

/-!
# Words of flags

A word has a flag of a mask if their meet is not zero.
-/

namespace FlagWord

variable {w : ℕ} {x y m : BitVec w}

theorem or_and_eq_zero : (x ||| y) &&& m = 0 ↔ x &&& m = 0 ∧ y &&& m = 0 := by
  rw [BitVec.and_or_distrib_right]
  exact BitVec.or_eq_zero_iff

theorem and_or_eq_zero : x &&& (y ||| m) = 0 ↔ x &&& y = 0 ∧ x &&& m = 0 := by
  rw [BitVec.and_or_distrib_left]
  exact BitVec.or_eq_zero_iff

/-- Flags that are set aside from `x` do not come back. -/
theorem or_and_of_disjoint (h : y &&& m = 0) : (x ||| y) &&& m = x &&& m := by
  rw [BitVec.and_or_distrib_right, h]
  simp

theorem and_not_and_eq_zero (h : x &&& m = 0) : x &&& ~~~y &&& m = 0 := by
  rw [BitVec.and_assoc, BitVec.and_comm (~~~y), ← BitVec.and_assoc, h]
  simp

theorem and_not_of_disjoint (h : x &&& m = 0) : x &&& ~~~m = x := by
  ext i hi
  have hbit : (x &&& m)[i] = false := by simp [h]
  rw [BitVec.getElem_and, Bool.and_eq_false_iff] at hbit
  rw [BitVec.getElem_and, BitVec.getElem_not]
  rcases hbit with hx | hm
  · simp [hx]
  · simp [hm]

/-- What is disjoint from a mask meets nothing within it. -/
theorem and_eq_zero_of_le (h : x &&& m = 0) (hy : y &&& ~~~m = 0) : x &&& y = 0 := by
  rw [← and_not_of_disjoint h, BitVec.and_assoc, BitVec.and_comm (~~~m), hy]
  simp

end FlagWord
