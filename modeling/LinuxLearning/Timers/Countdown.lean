-- SUMMARY: Countdown timers as an abstract component: every tick counts all timers down and fires those at zero, and what follows for one timer in a run.
import Mathlib.Logic.Function.Basic
import LinuxLearning.Common.Run

/-!
# Countdown timers

A state gives every pending timer the number of ticks before the one that fires it. This
is what a timer wheel is for, and nothing here knows about slots or lists.
-/

namespace Countdown

open Transition

variable {ι δ : Type}

/-- Timers have names in `ι` and carry data in `δ`. -/
inductive Event (ι δ : Type) where
  | add (i : ι) (k : Nat) (d : δ)
  | del (i : ι)
  | tick (fired : List (ι × δ))

abbrev State (ι δ : Type) := ι → Option (Nat × δ)

def Event.isTick : Event ι δ → Bool
  | .tick _ => true
  | _ => false

/-- The number of ticks in a run. -/
def ticks (es : List (Event ι δ)) : Nat :=
  es.countP Event.isTick

def countdown : Option (Nat × δ) → Option (Nat × δ)
  | some (k + 1, d) => some (k, d)
  | _ => none

theorem ticks_cons (e : Event ι δ) (es : List (Event ι δ)) :
    ticks (e :: es) = ticks es + if e.isTick then 1 else 0 :=
  List.countP_cons

/-- What a tick fires for the timer `i`. -/
def due (i : ι) : Option (Nat × δ) → List (ι × δ)
  | some (0, d) => [(i, d)]
  | _ => []

variable [DecidableEq ι]

def Event.adds (i : ι) : Event ι δ → Bool
  | .add j _ _ => i = j
  | _ => false

def Event.dels (i : ι) : Event ι δ → Bool
  | .del j => i = j
  | _ => false

inductive Step : State ι δ → Event ι δ → State ι δ → Prop where
  | add {s : State ι δ} {i : ι} {k : Nat} {d : δ} : s i = none →
      Step s (.add i k d) (Function.update s i (some (k, d)))
  | del {s : State ι δ} {i : ι} : Step s (.del i) (Function.update s i none)
  | tick {s : State ι δ} {fired : List (ι × δ)} :
      (∀ i, fired.filter (fun x => x.1 = i) = due i (s i)) →
      Step s (.tick fired) (fun i => countdown (s i))

/-- What an event does to the timer `i`. -/
def Event.effect (i : ι) (x : Option (Nat × δ)) : Event ι δ → Option (Nat × δ)
  | .add j k d => if i = j then some (k, d) else x
  | .del j => if i = j then none else x
  | .tick _ => countdown x

variable {s t : State ι δ} {i : ι} {k : Nat} {d : δ} {e : Event ι δ} {es : List (Event ι δ)}

theorem Step.effect (h : Step s e t) (i : ι) : t i = e.effect i (s i) := by
  cases h with
  | add _ => exact Function.update_apply ..
  | del => exact Function.update_apply ..
  | tick _ => rfl

theorem Step.isSome_add (h : Step s (.add i k d) t) (j : ι) : (t j).isSome ↔ j = i ∨ (s j).isSome := by
  rw [h.effect, Event.effect]
  by_cases hji : j = i
  · simp [hji]
  · simp [hji]

theorem Step.isSome_del (h : Step s (.del i) t) (j : ι) : (t j).isSome ↔ j ≠ i ∧ (s j).isSome := by
  rw [h.effect, Event.effect]
  by_cases hji : j = i
  · simp [hji]
  · simp [hji]

/-- A tick ends the timers that it fires. -/
theorem Step.isSome_tick {fired : List (ι × δ)} (h : Step s (.tick fired) t) (i : ι) :
    (t i).isSome ↔ (s i).isSome ∧ i ∉ fired.map Prod.fst := by
  have hmem : i ∈ fired.map Prod.fst ↔ fired.filter (fun x => x.1 = i) ≠ [] := by
    simp only [List.mem_map, ne_eq, List.filter_eq_nil_iff, decide_eq_true_eq, not_forall, not_not,
      exists_prop]
  rw [h.effect, hmem]
  cases h with
  | tick hfired =>
    rw [hfired i]
    cases s i with
    | none => simp [Event.effect, countdown]
    | some x =>
      obtain ⟨k, d⟩ := x
      cases k with
      | zero => simp [Event.effect, countdown, due]
      | succ k => simp [Event.effect, countdown, due]

theorem Run.effect (hrun : Run Step s es t) (i : ι) : t i = es.foldl (Event.effect i) (s i) := by
  induction hrun with
  | nil => rfl
  | cons hstep _ ih => rw [ih, hstep.effect, List.foldl_cons]

/-- A timer that is not pending stays so until it is added. -/
theorem foldl_none (hadd : es.all (fun e => !e.adds i)) :
    es.foldl (Event.effect i) none = none := by
  induction es with
  | nil => rfl
  | cons e es ih =>
    rw [List.all_cons, Bool.and_eq_true, Bool.not_eq_true'] at hadd
    have he : e.effect i none = none := by
      cases e with
      | add j k d =>
        have hij : i ≠ j := by simpa [Event.adds] using hadd.1
        exact if_neg hij
      | del j => exact ite_self none
      | tick fired => rfl
    rw [List.foldl_cons, he, ih hadd.2]

/-- A pending timer counts down until it has fired or is deleted. -/
theorem foldl_some (hadd : es.all (fun e => !e.adds i)) :
    es.foldl (Event.effect i) (some (k, d)) =
      if es.any (fun e => e.dels i) = false ∧ ticks es ≤ k then some (k - ticks es, d) else none := by
  induction es generalizing k with
  | nil => simp [ticks]
  | cons e es ih =>
    rw [List.all_cons, Bool.and_eq_true, Bool.not_eq_true'] at hadd
    rw [List.foldl_cons, List.any_cons, ticks_cons]
    cases e with
    | add j k' d' =>
      have hij : i ≠ j := by simpa [Event.adds] using hadd.1
      rw [Event.effect, if_neg hij, ih hadd.2]
      rfl
    | del j =>
      by_cases hij : i = j
      · rw [Event.effect, if_pos hij, foldl_none hadd.2, if_neg (fun h => ?_)]
        simp [Event.dels, hij] at h
      · have hdel : (Event.del j : Event ι δ).dels i = false := decide_eq_false hij
        rw [Event.effect, if_neg hij, ih hadd.2, hdel, Bool.false_or]
        rfl
    | tick fired =>
      cases k with
      | zero =>
        rw [if_neg (fun h => Nat.not_succ_le_zero _ h.2)]
        exact foldl_none hadd.2
      | succ k =>
        simp only [Event.isTick, if_true, Nat.add_le_add_iff_right, Nat.add_sub_add_right]
        exact ih hadd.2

/-- A tick fires the timer added before exactly if it has not been deleted and all its
    ticks have passed; the name stands for that timer until it is added again. -/
theorem fired_iff {mid : List (Event ι δ)} {fired : List (ι × δ)}
    (hrun : Run Step s (.add i k d :: (mid ++ [.tick fired])) t)
    (hadd : mid.all (fun e => !e.adds i)) :
    fired.filter (fun x => x.1 = i) =
      if mid.any (fun e => e.dels i) = false ∧ ticks mid = k then [(i, d)] else [] := by
  obtain ⟨s₁, hstep, hrun⟩ := Run.cons_iff.mp hrun
  obtain ⟨s₂, hmid, htick⟩ := Run.append_iff.mp hrun
  obtain ⟨s₃, htick, -⟩ := Run.cons_iff.mp htick
  have h₁ : s₁ i = some (k, d) := (hstep.effect i).trans (if_pos rfl)
  have h₂ := Run.effect hmid i
  rw [h₁, foldl_some hadd] at h₂
  cases htick with
  | tick hfired =>
    rw [hfired i, h₂]
    by_cases hdel : mid.any (fun e => e.dels i) = false
    · rcases Nat.lt_trichotomy (ticks mid) k with hlt | heq | hgt
      · obtain ⟨m, hm⟩ : ∃ m, k - ticks mid = m + 1 := ⟨k - ticks mid - 1, by omega⟩
        rw [if_pos ⟨hdel, Nat.le_of_lt hlt⟩, if_neg (fun h => Nat.ne_of_lt hlt h.2), hm]
        rfl
      · rw [if_pos ⟨hdel, Nat.le_of_eq heq⟩, if_pos ⟨hdel, heq⟩, heq, Nat.sub_self]
        rfl
      · rw [if_neg (fun h => Nat.not_le_of_gt hgt h.2), if_neg (fun h => Nat.ne_of_gt hgt h.2)]
        rfl
    · rw [if_neg (fun h => hdel h.1), if_neg (fun h => hdel h.1)]
      rfl

/-- The name of a pending timer is not given out again. -/
theorem not_added (hrun : Run Step s es t) (hs : s i = some (k, d))
    (hdel : es.any (fun e => e.dels i) = false) (hk : ticks es ≤ k) :
    es.all (fun e => !e.adds i) := by
  induction hrun generalizing k with
  | nil => rfl
  | @cons s₁ t₁ u₁ e es₁ hstep _ ih =>
    rw [List.any_cons, Bool.or_eq_false_iff] at hdel
    rw [ticks_cons] at hk
    have heff := hstep.effect i
    rw [List.all_cons, Bool.and_eq_true, Bool.not_eq_true']
    cases hstep with
    | @add j k' d' hj =>
      have hij : i ≠ j := by
        rintro rfl
        rw [hs] at hj
        cases hj
      rw [Event.effect, if_neg hij] at heff
      exact ⟨decide_eq_false hij, ih (heff.trans hs) hdel.2 hk⟩
    | @del j =>
      have hij : i ≠ j := by simpa [Event.dels] using hdel.1
      rw [Event.effect, if_neg hij] at heff
      exact ⟨rfl, ih (heff.trans hs) hdel.2 hk⟩
    | tick _ =>
      rw [Event.isTick, if_pos rfl] at hk
      obtain ⟨m, rfl⟩ : ∃ m, k = m + 1 := ⟨k - 1, by omega⟩
      rw [Event.effect, hs] at heff
      exact ⟨rfl, ih heff hdel.2 (Nat.le_of_succ_le_succ hk)⟩

end Countdown
