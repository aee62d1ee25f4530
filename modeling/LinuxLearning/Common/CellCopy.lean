-- SUMMARY: Copying cells one after the other, and when that is the same as copying them all at once.
import Mathlib.Logic.Function.Basic

/-!
# Copying cells

A pair is a copy: the first cell is written with what the second one holds. Copies done in
sequence read what earlier ones have written, unless no cell is read after it was written.
-/

namespace CellCopy

variable {α β : Type} [DecidableEq α] {m : α → β} {ps : List (α × α)} {p : α × α} {a : α}

def copy (m : α → β) (p : α × α) : α → β :=
  Function.update m p.1 (m p.2)

/-- The copies in sequence. -/
def copyAll (m : α → β) (ps : List (α × α)) : α → β :=
  ps.foldl copy m

/-- No copy writes a cell that a later one reads or writes. -/
def Orderly (ps : List (α × α)) : Prop :=
  ps.Pairwise fun p q => p.1 ≠ q.1 ∧ p.1 ≠ q.2

@[simp] theorem copyAll_nil : copyAll m [] = m := rfl

@[simp] theorem copyAll_cons : copyAll m (p :: ps) = copyAll (copy m p) ps := rfl

theorem copy_of_ne (h : a ≠ p.1) : copy m p a = m a :=
  Function.update_of_ne h _ _

/-- The cells that are not written keep what they hold. -/
theorem copyAll_frame (h : ∀ p ∈ ps, a ≠ p.1) : copyAll m ps a = m a := by
  induction ps generalizing m with
  | nil => rfl
  | cons p ps ih =>
    obtain ⟨hp, hps⟩ := List.forall_mem_cons.mp h
    rw [copyAll_cons, ih hps, copy_of_ne hp]

/-- Copies in good order copy what was there before the first of them. -/
theorem Orderly.copied (h : Orderly ps) : ∀ p ∈ ps, copyAll m ps p.1 = m p.2 := by
  induction ps generalizing m with
  | nil => simp
  | cons p ps ih =>
    obtain ⟨hp, hps⟩ := List.pairwise_cons.mp h
    rintro q (_ | ⟨_, hq⟩)
    · rw [copyAll_cons, copyAll_frame fun q hq => (hp q hq).1, copy, Function.update_self]
    · rw [copyAll_cons, ih hps q hq, copy_of_ne (hp q hq).2.symm]

end CellCopy
