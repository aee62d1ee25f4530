-- SUMMARY: Countdown timers as alarms: with one timer for each owner, counting down to it is waiting for a time.
import LinuxLearning.Common.Alarms
import LinuxLearning.Timers.Countdown

/-!
# Countdown timers as alarms

If time is the number of ticks so far, a timer with `k` ticks to wait is an alarm that is due
`k` from now. The data of a timer says whose it is, and `timer` leads from an owner to it.
-/

namespace Countdown

open Transition Alarms

variable {ι κ δ : Type} {timer : κ → Option ι} {s t : State ι (δ × κ)} {now e : Int} {p q : ι} {u v : κ}
  {k : Nat} {d : δ} {fired : List (ι × δ × κ)}

/-- `timer` leads from each owner to the one timer that it has. -/
def Owned (timer : κ → Option ι) (s : State ι (δ × κ)) : Prop :=
  ∀ u p, timer u = some p ↔ ∃ k d, s p = some (k, d, u)

/-- The alarms of the owners when there have been `now` ticks. -/
def alarms (now : Int) (timer : κ → Option ι) (s : State ι (δ × κ)) : Alarms.State κ δ := fun u =>
  (timer u).bind fun p => (s p).map fun x => (now + x.1, x.2.1)

theorem Owned.unique (h : Owned timer s) {k' : Nat} {d' : δ} (hp : s p = some (k, d, u))
    (hq : s q = some (k', d', u)) : p = q :=
  Option.some.inj (((h u p).mpr ⟨k, d, hp⟩).symm.trans ((h u q).mpr ⟨k', d', hq⟩))

theorem Owned.alarms_eq (h : Owned timer s) :
    alarms now timer s u = some (e, d) ↔ ∃ p k, s p = some (k, d, u) ∧ e = now + k := by
  constructor
  · intro halarm
    obtain ⟨p, hp, hsp⟩ := Option.bind_eq_some_iff.mp halarm
    obtain ⟨k, d', hs⟩ := (h u p).mp hp
    rw [hs] at hsp
    cases hsp
    exact ⟨p, k, hs, rfl⟩
  · rintro ⟨p, k, hs, rfl⟩
    refine Option.bind_eq_some_iff.mpr ⟨p, (h u p).mpr ⟨k, d, hs⟩, ?_⟩
    rw [hs]
    rfl

/-- What is said of each alarm in two states makes them one. -/
theorem alarms_ext {f g : Alarms.State κ δ} (h : ∀ v e d, f v = some (e, d) ↔ g v = some (e, d)) : f = g :=
  funext fun v => Option.ext fun a => h v a.1 a.2

-- ---------------------------------------------------------------------------
-- Adding and deleting
-- ---------------------------------------------------------------------------

section Requests

variable [DecidableEq ι] [DecidableEq κ]

/-- The timer of one owner changes, where it has no other one. -/
theorem Owned.update (h : Owned timer s) (hp : ∀ k d v, s p = some (k, d, v) → v = u)
    (hu : ∀ q k d, s q = some (k, d, u) → q = p) (x : Option (Nat × δ)) :
    Owned (Function.update timer u (x.map fun _ => p)) (Function.update s p (x.map fun a => (a.1, a.2, u))) := by
  intro v q
  by_cases hv : v = u
  · subst hv
    rw [Function.update_self]
    by_cases hq : q = p
    · subst hq
      cases x <;> simp
    · rw [Function.update_of_ne hq]
      refine iff_of_false ?_ fun ⟨k, d, hs⟩ => hq (hu q k d hs)
      cases x <;> simp [Ne.symm hq]
  · rw [Function.update_of_ne hv, h v q]
    by_cases hq : q = p
    · subst hq
      rw [Function.update_self]
      refine iff_of_false (fun ⟨k, d, hs⟩ => hv (hp k d v hs)) ?_
      cases x <;> simp [Ne.symm hv]
    · rw [Function.update_of_ne hq]

theorem Owned.alarms_update (h : Owned timer s) (hp : ∀ k d v, s p = some (k, d, v) → v = u)
    (hu : ∀ q k d, s q = some (k, d, u) → q = p) (x : Option (Nat × δ)) :
    alarms now (Function.update timer u (x.map fun _ => p)) (Function.update s p (x.map fun a => (a.1, a.2, u))) =
      Function.update (alarms now timer s) u (x.map fun a => (now + a.1, a.2)) := by
  refine alarms_ext fun v e d => ?_
  rw [(h.update hp hu x).alarms_eq, Function.update_apply]
  by_cases hv : v = u
  · subst hv
    rw [if_pos rfl]
    constructor
    · rintro ⟨q, k, hq, rfl⟩
      by_cases hqp : q = p
      · subst hqp
        rw [Function.update_self] at hq
        cases x with
        | none => cases hq
        | some a =>
          cases hq
          rfl
      · rw [Function.update_of_ne hqp] at hq
        exact absurd (hu q k d hq) hqp
    · intro heq
      cases x with
      | none => cases heq
      | some a =>
        cases heq
        exact ⟨p, a.1, Function.update_self .., rfl⟩
  · rw [if_neg hv, h.alarms_eq]
    refine exists_congr fun q => exists_congr fun k => and_congr_left fun _ => ?_
    by_cases hqp : q = p
    · subst hqp
      rw [Function.update_self]
      refine iff_of_false ?_ fun hs => hv (hp k d v hs)
      cases x <;> simp [Ne.symm hv]
    · rw [Function.update_of_ne hqp]

end Requests

-- ---------------------------------------------------------------------------
-- Ticks
-- ---------------------------------------------------------------------------

section Ticks

variable [DecidableEq ι]

theorem Step.mem_fired (h : Step s (.tick fired) t) {x : δ × κ} : (p, x) ∈ fired ↔ s p = some (0, x) := by
  cases h with
  | tick hfired =>
    have hmem : (p, x) ∈ fired ↔ (p, x) ∈ due p (s p) := by
      rw [← hfired p, List.mem_filter]
      simp
    rw [hmem]
    rcases hs : s p with _ | ⟨k, y⟩
    · simp [due]
    · cases k with
      | zero => simp [due, eq_comm]
      | succ k => simp [due]

theorem Step.nodup_fired (h : Step s (.tick fired) t) : (fired.map Prod.fst).Nodup := by
  cases h with
  | tick hfired =>
    refine List.nodup_iff_count_le_one.mpr fun p => ?_
    have hcount : (fired.map Prod.fst).count p = (due p (s p)).length := by
      rw [← hfired p, List.count, List.countP_map, List.countP_eq_length_filter]
      rfl
    rw [hcount]
    rcases s p with _ | ⟨_ | k, y⟩
    · exact Nat.zero_le 1
    · exact Nat.le_refl 1
    · exact Nat.zero_le 1

theorem countdown_eq {x : Option (Nat × δ)} : countdown x = some (k, d) ↔ x = some (k + 1, d) := by
  rcases x with _ | ⟨_ | k', d'⟩
  · simp [countdown]
  · simp [countdown]
  · simp [countdown]

/-- A timer that a tick fires was due now. -/
theorem Owned.alarms_now (h : Owned timer s) (hstep : Step s (.tick fired) t) {x : ι × δ × κ} (hx : x ∈ fired) :
    alarms now timer s x.2.2 = some (now, x.2.1) :=
  h.alarms_eq.mpr ⟨x.1, 0, hstep.mem_fired.mp hx, by simp⟩

/-- A tick sets off the alarms that are due now. -/
theorem Owned.goesOff (h : Owned timer s) (hstep : Step s (.tick fired) t) :
    GoesOff (alarms now timer s) now (fired.map fun x => (x.2.2, x.2.1)) := by
  refine ⟨?_, fun u d => ?_, ?_⟩
  · rw [List.map_map]
    refine hstep.nodup_fired.of_map.map_on fun x hx y hy hxy => ?_
    obtain ⟨p, d, u⟩ := x
    obtain ⟨q, d', v⟩ := y
    obtain rfl : u = v := hxy
    rw [hstep.mem_fired] at hx hy
    obtain rfl := h.unique hx hy
    cases hx.symm.trans hy
    rfl
  · simp only [h.alarms_eq]
    constructor
    · intro hmem
      obtain ⟨⟨p, d', v⟩, hx, heq⟩ := List.mem_map.mp hmem
      cases heq
      exact ⟨now, ⟨p, 0, hstep.mem_fired.mp hx, by simp⟩, Int.le_refl now⟩
    · rintro ⟨e, ⟨p, k, hs, rfl⟩, hle⟩
      obtain rfl : k = 0 := by omega
      exact List.mem_map.mpr ⟨(p, d, u), hstep.mem_fired.mpr hs, rfl⟩
  · rw [List.pairwise_map]
    refine List.pairwise_of_forall_mem_list fun x hx y hy a b ha hb => ?_
    rw [h.alarms_now hstep hx] at ha
    rw [h.alarms_now hstep hy] at hb
    cases ha
    cases hb
    exact Int.le_refl now

/-- The owners whose timers have fired have none. -/
theorem Owned.tick {timer' : κ → Option ι} (h : Owned timer s) (hstep : Step s (.tick fired) t)
    (hnone : ∀ u ∈ fired.map (fun x => x.2.2), timer' u = none)
    (hkeep : ∀ u ∉ fired.map (fun x => x.2.2), timer' u = timer u) : Owned timer' t := by
  intro u p
  have ht : t p = countdown (s p) := hstep.effect p
  have hcalled : u ∈ fired.map (fun x => x.2.2) ↔ ∃ q d, s q = some (0, d, u) := by
    simp only [List.mem_map, Prod.exists, hstep.mem_fired]
    constructor
    · rintro ⟨q, d, v, hs, rfl⟩
      exact ⟨q, d, hs⟩
    · rintro ⟨q, d, hs⟩
      exact ⟨q, d, u, hs, rfl⟩
  rw [ht]
  simp only [countdown_eq]
  by_cases hex : ∃ q d, s q = some (0, d, u)
  · rw [hnone u (hcalled.mpr hex)]
    refine iff_of_false (by simp) ?_
    rintro ⟨k, d, hs⟩
    obtain ⟨q, d', hq⟩ := hex
    obtain rfl := h.unique hq hs
    cases hq.symm.trans hs
  · rw [hkeep u (mt hcalled.mp hex), h u p]
    constructor
    · rintro ⟨k, d, hs⟩
      cases k with
      | zero => exact absurd ⟨p, d, hs⟩ hex
      | succ k => exact ⟨k, d, hs⟩
    · rintro ⟨k, d, hs⟩
      exact ⟨k + 1, d, hs⟩

/-- The others are due one tick sooner. -/
theorem Owned.alarms_tick {timer' : κ → Option ι} (h : Owned timer s) (hstep : Step s (.tick fired) t)
    (h' : Owned timer' t) :
    alarms (now + 1) timer' t = fun u => (alarms now timer s u).filter fun a => now < a.1 := by
  refine alarms_ext fun u e d => ?_
  rw [h'.alarms_eq, Option.filter_eq_some_iff, h.alarms_eq, decide_eq_true_iff]
  simp only [hstep.effect, Event.effect, countdown_eq]
  constructor
  · rintro ⟨p, k, hs, rfl⟩
    exact ⟨⟨p, k + 1, hs, by omega⟩, by omega⟩
  · rintro ⟨⟨p, k, hs, rfl⟩, hlt⟩
    obtain ⟨k, rfl⟩ : ∃ j, k = j + 1 := ⟨k - 1, by omega⟩
    exact ⟨p, k, hs, by omega⟩

end Ticks

end Countdown
