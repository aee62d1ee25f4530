-- SUMMARY: Lines that each end with a terminator, and the text they make.
import Mathlib.Data.List.Basic

/-!
# Lines

A text is made of lines, each of them followed by the terminator. Every text that is empty
or ends with the terminator is made of its lines.
-/

namespace Lines

variable {α : Type} [DecidableEq α] {sep b : α} {f l : List α} {ls ks : List (List α)}

/-- The lines of a text, without their terminators. What is left at the end is a line too. -/
def lines (sep : α) : List α → List (List α)
  | [] => []
  | b :: f =>
    if b = sep then [] :: lines sep f
    else
      match lines sep f with
      | [] => [[b]]
      | l :: ls => (b :: l) :: ls

def text (sep : α) (ls : List (List α)) : List α :=
  ls.flatMap (· ++ [sep])

/-- The last line has its terminator too. -/
def Terminated (sep : α) (f : List α) : Prop :=
  f = [] ∨ f.getLast? = some sep

omit [DecidableEq α] in
@[simp] theorem text_nil : text sep [] = [] := rfl

omit [DecidableEq α] in
@[simp] theorem text_cons : text sep (l :: ls) = l ++ sep :: text sep ls := by
  simp [text]

omit [DecidableEq α] in
@[simp] theorem text_append : text sep (ls ++ ks) = text sep ls ++ text sep ks :=
  List.flatMap_append

omit [DecidableEq α] in
theorem text_eq_nil_iff : text sep ls = [] ↔ ls = [] := by
  cases ls <;> simp

omit [DecidableEq α] in
theorem text_take_append_drop (k : Nat) (ls : List (List α)) :
    text sep (ls.take k) ++ text sep (ls.drop k) = text sep ls := by
  rw [← text_append, List.take_append_drop]

/-- No line holds the terminator. -/
theorem sep_notMem_of_mem_lines : ∀ l ∈ lines sep f, sep ∉ l := by
  induction f with
  | nil => simp [lines]
  | cons b f ih =>
    unfold lines
    split
    · simpa using ih
    · rename_i hb
      cases hls : lines sep f with
      | nil => simpa using Ne.symm hb
      | cons l ls =>
        rw [hls] at ih
        have hl := ih l List.mem_cons_self
        rintro k (_ | ⟨_, hk⟩)
        · simp [hl, Ne.symm hb]
        · exact ih k (List.mem_cons_of_mem _ hk)

theorem lines_eq_nil_iff : lines sep f = [] ↔ f = [] := by
  cases f with
  | nil => simp [lines]
  | cons b f =>
    unfold lines
    split
    · simp
    · split <;> simp

/-- A text is made of its lines. -/
theorem text_lines (h : Terminated sep f) : text sep (lines sep f) = f := by
  induction f with
  | nil => rfl
  | cons b f ih =>
    by_cases hf : f = []
    · -- the last byte is the terminator
      subst hf
      obtain h | h := h
      · cases h
      · obtain rfl : b = sep := by simpa using h
        simp [lines]
    · have hlast : Terminated sep f := by
        obtain h | h := h
        · cases h
        · rw [List.getLast?_cons_of_ne_nil hf] at h
          exact .inr h
      have hrest := ih hlast
      unfold lines
      split
      · rename_i hb
        simp [hrest, hb]
      · cases hls : lines sep f with
        | nil => exact absurd (lines_eq_nil_iff.mp hls) hf
        | cons l ls =>
          rw [hls, text_cons] at hrest
          simp [← hrest]

/-- A text starts with the terminator exactly if its first line is empty. -/
theorem head_lines : (lines sep f).head? = some [] ↔ f.head? = some sep := by
  cases f with
  | nil => simp [lines]
  | cons b f =>
    unfold lines
    split
    · rename_i hb
      simp [hb]
    · rename_i hb
      split <;> simp [hb]

end Lines
