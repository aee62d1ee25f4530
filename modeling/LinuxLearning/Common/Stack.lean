-- SUMMARY: A stack that several parties push to and pop from: what has gone in is what is there and what has come out, and who took it.
import Mathlib.Data.List.Nodup
import LinuxLearning.Common.Run

/-!
# Shared stacks

No element is pushed while it is on the stack, but it may be pushed again after it has been
popped. So a push is looked at up to the next push of its element: until then the element is
on the stack, or one party has popped it.
-/

namespace Stack

open Transition

variable {α κ : Type}

/-- What happens to the stack; a party in `κ` pops. -/
inductive Event (α κ : Type) where
  | push (a : α)
  | pop (c : κ) (a : α)
  | skip

inductive Step : List α → Event α κ → List α → Prop where
  | push {as : List α} {a : α} : a ∉ as → Step as (.push a) (a :: as)
  | pop {as : List α} (c : κ) {a : α} : Step (a :: as) (.pop c a) as
  | skip (as : List α) : Step as .skip as

def pushed (es : List (Event α κ)) : List α :=
  es.filterMap fun
    | .push a => some a
    | _ => none

def popped (es : List (Event α κ)) : List α :=
  es.filterMap fun
    | .pop _ a => some a
    | _ => none

/-- The parties that pop `a`. -/
def takers [DecidableEq α] (a : α) (es : List (Event α κ)) : List κ :=
  es.filterMap fun
    | .pop c b => if b = a then some c else none
    | _ => none

variable {as bs : List α} {a : α} {e : Event α κ} {es : List (Event α κ)}

/-- What is there at the end and what has been popped is what was there at the start and what
    has been pushed. -/
theorem run_perm (hrun : Run Step as es bs) : List.Perm (bs ++ popped es) (pushed es ++ as) := by
  induction hrun with
  | nil as => simp [popped, pushed]
  | @cons as cs bs e es h _ ih =>
    cases h with
    | @push _ a _ => exact ih.trans List.perm_middle
    | @pop _ c a => exact (List.perm_middle.trans (ih.cons a)).trans List.perm_middle.symm
    | skip _ => exact ih

theorem run_nodup (hrun : Run Step as es bs) (has : as.Nodup) : bs.Nodup := by
  refine Run.invariant (fun as e bs has h => ?_) hrun has
  cases h with
  | push ha => exact has.cons ha
  | pop _ => exact has.of_cons
  | skip _ => exact has

variable [DecidableEq α]

theorem takers_pop (c : κ) (b : α) (es : List (Event α κ)) :
    takers a (.pop c b :: es) = if b = a then c :: takers a es else takers a es := by
  by_cases h : b = a
  · simp [takers, h]
  · simp [takers, h]

/-- An element that is not on the stack is not popped until it is pushed. -/
theorem takers_nil (hrun : Run Step as es bs) (ha : a ∉ as) (hpush : .push a ∉ es) :
    a ∉ bs ∧ takers a es = [] := by
  induction hrun with
  | nil as => exact ⟨ha, rfl⟩
  | @cons as cs bs e es h _ ih =>
    rw [List.mem_cons, not_or] at hpush
    cases h with
    | @push _ b hb =>
      have hne : a ≠ b := fun heq => hpush.1 (heq ▸ rfl)
      exact ih (List.not_mem_cons_of_ne_of_not_mem hne ha) hpush.2
    | @pop _ c b =>
      obtain ⟨hne, ha⟩ := List.ne_and_not_mem_of_not_mem_cons ha
      obtain ⟨hbs, htakers⟩ := ih ha hpush.2
      refine ⟨hbs, ?_⟩
      rw [takers_pop, if_neg hne.symm, htakers]
    | skip _ => exact ih ha hpush.2

/-- An element that is on the stack stays there until one party pops it. -/
theorem takers_of_mem (hrun : Run Step as es bs) (has : as.Nodup) (ha : a ∈ as) (hpush : .push a ∉ es) :
    (a ∈ bs ∧ takers a es = []) ∨ (a ∉ bs ∧ ∃ c, takers a es = [c]) := by
  induction hrun with
  | nil as => exact .inl ⟨ha, rfl⟩
  | @cons as cs bs e es h hrun ih =>
    rw [List.mem_cons, not_or] at hpush
    cases h with
    | push hb => exact ih (has.cons hb) (List.mem_cons_of_mem _ ha) hpush.2
    | @pop _ c b =>
      by_cases hba : b = a
      · subst hba
        obtain ⟨hbs, htakers⟩ := takers_nil hrun (List.nodup_cons.mp has).1 hpush.2
        refine .inr ⟨hbs, c, ?_⟩
        rw [takers_pop, if_pos rfl, htakers]
      · rw [takers_pop, if_neg hba]
        exact ih has.of_cons (List.mem_of_ne_of_mem (Ne.symm hba) ha) hpush.2
    | skip _ => exact ih has ha hpush.2

/-- What a run that begins with the empty stack says of each push. -/
structure Accounted (es : List (Event α κ)) (as : List α) : Prop where
  nodup : as.Nodup
  perm : List.Perm (as ++ popped es) (pushed es)
  /-- An element is still there, or one party has popped it since the push. -/
  last : ∀ pre a post, es = pre ++ .push a :: post → .push a ∉ post →
    (a ∈ as ∧ takers a post = []) ∨ (a ∉ as ∧ ∃ c, takers a post = [c])
  /-- An element that is pushed again has been popped in between, by one party. -/
  again : ∀ pre a mid post, es = pre ++ .push a :: (mid ++ .push a :: post) → .push a ∉ mid →
    ∃ c, takers a mid = [c]

/-- From a push of an element to the end of the run or the next push of it. -/
theorem takers_of_push {pre mid : List (Event α κ)} (hrun : Run Step [] (pre ++ .push a :: mid) as)
    (hmid : .push a ∉ mid) : (a ∈ as ∧ takers a mid = []) ∨ (a ∉ as ∧ ∃ c, takers a mid = [c]) := by
  obtain ⟨bs, hpre, hrun⟩ := Run.append_iff.mp hrun
  obtain ⟨cs, hpush, hrun⟩ := Run.cons_iff.mp hrun
  cases hpush with
  | push ha => exact takers_of_mem hrun ((run_nodup hpre List.nodup_nil).cons ha) List.mem_cons_self hmid

theorem run_accounted (hrun : Run Step [] es as) : Accounted es as where
  nodup := run_nodup hrun List.nodup_nil
  perm := List.append_nil (pushed es) ▸ run_perm hrun
  last := by
    rintro pre a post rfl hpost
    exact takers_of_push hrun hpost
  again := by
    rintro pre a mid post rfl hmid
    rw [← List.cons_append, ← List.append_assoc] at hrun
    obtain ⟨bs, hrun, hpost⟩ := Run.append_iff.mp hrun
    obtain ⟨cs, hpush, -⟩ := Run.cons_iff.mp hpost
    cases hpush with
    | push ha =>
      rcases takers_of_push hrun hmid with ⟨hbs, -⟩ | ⟨-, hone⟩
      · exact absurd hbs ha
      · exact hone

end Stack
