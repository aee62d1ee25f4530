-- SUMMARY: Segments of an array as lists: taking the first and the last slot, and removing a slot by moving the last one into it.
import Mathlib.Data.List.Intervals
import Mathlib.Data.List.Nodup
import Mathlib.Logic.Function.Basic

/-!
# Segments

`segment f a b` is what the slots `a`, …, `b - 1` of an array `f` hold. Where the order
does not matter, a slot is removed by moving the last one into it.
-/

namespace Segment

variable {α β : Type} {f g : Nat → α} {a b i : Nat} {x : α}

def segment (f : Nat → α) (a b : Nat) : List α :=
  (List.Ico a b).map f

theorem mem_segment : x ∈ segment f a b ↔ ∃ k, (a ≤ k ∧ k < b) ∧ f k = x := by
  simp [segment]

theorem segment_nil (h : b ≤ a) : segment f a b = [] := by
  rw [segment, List.Ico.eq_nil_of_le h, List.map_nil]

theorem segment_cons (h : a < b) : segment f a b = f a :: segment f (a + 1) b := by
  rw [segment, List.Ico.eq_cons h, List.map_cons, segment]

theorem segment_concat (h : a ≤ b) : segment f a (b + 1) = segment f a b ++ [f b] := by
  rw [segment, List.Ico.succ_top h, List.map_append, List.map_singleton, segment]

theorem segment_append (ha : a ≤ i) (hb : i ≤ b) : segment f a i ++ segment f i b = segment f a b := by
  rw [segment, segment, ← List.map_append, List.Ico.append_consecutive ha hb, segment]

theorem segment_congr (h : ∀ k, a ≤ k → k < b → f k = g k) : segment f a b = segment g a b := by
  refine List.map_congr_left fun k hk => ?_
  obtain ⟨ha, hb⟩ := List.Ico.mem.mp hk
  exact h k ha hb

theorem map_segment (h : α → β) : (segment f a b).map h = segment (fun k => h (f k)) a b := by
  rw [segment, List.map_map, segment]
  rfl

/-- Slots that hold the same are the same. -/
theorem index_unique (h : (segment f a b).Nodup) {j k : Nat} (hj : a ≤ j ∧ j < b) (hk : a ≤ k ∧ k < b)
    (he : f j = f k) : j = k :=
  List.inj_on_of_nodup_map h (List.Ico.mem.mpr hj) (List.Ico.mem.mpr hk) he

/-- Removing a slot removes what it holds, and nothing else. -/
theorem segment_remove (ha : a ≤ i) (hb : i ≤ b) :
    List.Perm (segment f a (b + 1)) (f i :: segment (Function.update f i (f b)) a b) := by
  have hleft : segment (Function.update f i (f b)) a i = segment f a i :=
    segment_congr fun k _ hk => Function.update_of_ne hk.ne ..
  rw [← segment_append ha (hb.trans b.le_succ), ← segment_append ha hb, hleft,
    segment_cons (Nat.lt_succ_of_le hb)]
  refine List.perm_middle.trans (.cons _ (.append_left _ ?_))
  rcases hb.eq_or_lt with rfl | hlt
  · rw [segment_nil le_rfl, segment_nil le_rfl]
  · have hright : segment (Function.update f i (f b)) (i + 1) b = segment f (i + 1) b :=
      segment_congr fun k hk _ => Function.update_of_ne (Nat.ne_of_gt hk) ..
    rw [segment_concat hlt, segment_cons hlt, hright, Function.update_self]
    exact List.perm_append_singleton ..

end Segment
