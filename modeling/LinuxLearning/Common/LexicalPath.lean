-- SUMMARY: Lexical normalisation of paths: where a list of components leads from a base, and when it stays below that base.
import Mathlib.Data.List.Infix

/-!
# Lexical paths

A path is a list of components, each the name of a directory entry or the step to
the parent. `walk` follows it from a base, with the parent of the root being the root.
`relative` is the same path for an unknown base: how far it climbs above the base, and
what it then names.
-/

/-- A component of a path. -/
inductive Component (α : Type) where
  | name (a : α)
  | up
deriving Repr, DecidableEq

/-- A path relative to a base: `ups` levels above the base, then the names. -/
structure Relative (α : Type) where
  ups : Nat
  names : List α
deriving Repr, DecidableEq

namespace Component

variable {α : Type}

def enter (dir : List α) : Component α → List α
  | name a => dir ++ [a]
  | up => dir.dropLast

/-- The directory that the components lead to from `base`. -/
def walk (base : List α) (cs : List (Component α)) : List α :=
  cs.foldl enter base

def climb (r : Relative α) : Component α → Relative α
  | name a => { r with names := r.names ++ [a] }
  | up => if r.names.isEmpty then { r with ups := r.ups + 1 } else { r with names := r.names.dropLast }

/-- The normal form of the components. -/
def relative (cs : List (Component α)) : Relative α :=
  cs.foldl climb ⟨0, []⟩

@[simp] theorem walk_append (base : List α) (cs ds : List (Component α)) :
    walk base (cs ++ ds) = walk (walk base cs) ds :=
  List.foldl_append

end Component

namespace Relative

open Component

variable {α : Type}

/-- Where a relative path leads from `base`. -/
def resolve (r : Relative α) (base : List α) : List α :=
  base.take (base.length - r.ups) ++ r.names

theorem resolve_climb (r : Relative α) (base : List α) (c : Component α) :
    (climb r c).resolve base = enter (r.resolve base) c := by
  obtain ⟨k, names⟩ := r
  cases c with
  | name a => simp [resolve, climb, enter]
  | up =>
    cases hn : names.isEmpty with
    | true =>
      obtain rfl := List.isEmpty_iff.mp hn
      simp only [resolve, climb, enter, List.append_nil, List.isEmpty_nil, if_true]
      rw [List.dropLast_eq_take, List.length_take, List.take_take]
      congr 1
      omega
    | false =>
      have hne : names ≠ [] := fun h => by simp [h] at hn
      simp only [resolve, climb, enter, hn, Bool.false_eq_true, if_false]
      rw [List.dropLast_append_of_ne_nil hne]

end Relative

namespace Component

variable {α : Type} (base : List α) (cs : List (Component α))

theorem walk_eq_resolve : walk base cs = (relative cs).resolve base := by
  have hfold : ∀ r : Relative α, (cs.foldl climb r).resolve base = walk (r.resolve base) cs := by
    induction cs with
    | nil => exact fun _ => rfl
    | cons c cs ih =>
      intro r
      rw [List.foldl_cons, ih, Relative.resolve_climb]
      rfl
  rw [relative, hfold]
  simp [Relative.resolve]

/-- The components stay below the base, or come back to it by its own names. -/
theorem prefix_walk_iff :
    base <+: walk base cs ↔ base.drop (base.length - (relative cs).ups) <+: (relative cs).names := by
  rw [walk_eq_resolve, Relative.resolve]
  generalize base.length - (relative cs).ups = k
  have hsplit : base <+: base.take k ++ (relative cs).names ↔
      base.take k ++ base.drop k <+: base.take k ++ (relative cs).names := by
    rw [List.take_append_drop]
  rw [hsplit, List.prefix_append_right_inj]

end Component
