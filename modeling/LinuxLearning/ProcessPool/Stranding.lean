-- SUMMARY: The process pool strands a connection or a notification exactly if a run merges an arrival with an event that has not been collected.
import Mathlib.Algebra.Order.BigOperators.Group.Finset
import LinuxLearning.Common.Run
import LinuxLearning.ProcessPool.Pool
import LinuxLearning.ProcessPool.RoundRobin

/-!
# Stranded connections

Every event of the listening socket leads to one notification, every event of a pipe to
one `accept`. The connections that have none of these under way are lost: a merged
arrival adds one to them, and no step takes one away.
-/

namespace ProcessPool

open Transition

variable {pids : List Int} {s t : Pool} {a : Action} {c : Child} {children : Nat → Child} {n i : Nat}

/-- The accepts that a child will make without another notification. -/
def Child.underway (c : Child) : Nat :=
  c.ready.toNat + c.events.count .pipe + c.accepting.toNat

/-- The accepts that all will make without another connection. -/
def Pool.underway (pids : List Int) (s : Pool) : Nat :=
  s.ready.toNat + s.events.count .listen + ∑ i ∈ Finset.range pids.length, (s.children i).underway

/-- Notifications that are unread or have just been read. -/
def Child.held (c : Child) : Nat :=
  c.unread + c.accepting.toNat

/-- The invariant, with the number of connections that are lost. -/
structure PoolInv (pids : List Int) (s : Pool) (lost : Nat) : Prop where
  slots : s.parent.subProcess = pids.map Process.mk
  counter : s.parent.subProcessCounter < pids.length
  running : s.parent.stop = false
  known : ∀ ev ∈ s.events, ev = .listen ∨ ev = .other
  unread : ∀ i, i < pids.length →
    (s.children i).ready.toNat + (s.children i).events.count .pipe ≤ (s.children i).unread
  held : s.ready.toNat + s.events.count .listen + ∑ i ∈ Finset.range pids.length, (s.children i).held
    ≤ s.queue
  queue : s.queue = s.underway pids + lost

/-- A child changes, with what it has under way. -/
theorem PoolInv.child {lost d : Nat} (h : PoolInv pids s lost) (hi : i < pids.length)
    (hunread : c.ready.toNat + c.events.count .pipe ≤ c.unread)
    (hheld : c.held + d = (s.children i).held) (hunder : c.underway + d = (s.children i).underway) :
    PoolInv pids { s with queue := s.queue - d, children := Function.update s.children i c } lost := by
  have hsum₁ := sum_update Child.held s.children c (Finset.mem_range.mpr hi)
  have hsum₂ := sum_update Child.underway s.children c (Finset.mem_range.mpr hi)
  have hqueue := h.queue
  have hh := h.held
  refine ⟨h.slots, h.counter, h.running, h.known, fun j hj => ?_, ?_, ?_⟩
  · by_cases hji : j = i
    · subst hji
      simpa using hunread
    · simpa [Function.update_of_ne hji] using h.unread j hj
  · change s.ready.toNat + s.events.count .listen +
      ∑ j ∈ Finset.range pids.length, (Function.update s.children i c j).held ≤ s.queue - d
    omega
  · simp only [Pool.underway] at hqueue ⊢
    omega

theorem init_poolInv (hne : pids ≠ []) : PoolInv pids (.init pids) 0 where
  slots := rfl
  counter := List.length_pos_iff.mpr hne
  running := rfl
  known := nofun
  unread _ _ := Nat.le_refl 0
  held := by simp [Pool.init, Child.init, Child.held]
  queue := by simp [Pool.init, Pool.underway, Child.init, Child.underway]

/-- All children are alive, so the one at the counter is notified. -/
theorem PoolInv.onListen {lost : Nat} (h : PoolInv pids s lost) (hpos : ∀ q ∈ pids, 0 < q) :
    s.parent.onListen = .ok ({ s.parent with
      subProcessCounter := (s.parent.subProcessCounter + 1) % s.parent.subProcess.length },
      [.send s.parent.subProcessCounter], false) := by
  have hlen : s.parent.subProcess.length = pids.length := by rw [h.slots, List.length_map]
  have hlive : ∀ i, ¬ Parent.Dead s.parent.subProcess i := by
    rintro i ⟨p, hp, hdied⟩
    rw [h.slots, List.getElem?_map, Option.map_eq_some_iff] at hp
    obtain ⟨q, hq, rfl⟩ := hp
    have hqpos := hpos q (List.mem_of_getElem? hq)
    simp only at hdied
    omega
  have hc : s.parent.subProcessCounter < s.parent.subProcess.length := hlen ▸ h.counter
  rcases Parent.onListen_ok hc with ⟨i, hi, -, hfound, hrun⟩ | ⟨hdead, -⟩
  · have hi : i = s.parent.subProcessCounter := by
      rcases hfound with ⟨k, -, rfl, -, hdead⟩ | ⟨-, hdead⟩
      · cases k with
        | zero => rw [Nat.add_zero, Nat.mod_eq_of_lt hc]
        | succ k => exact absurd (hdead 0 (Nat.succ_pos k)) (hlive _)
      · exact absurd (hdead _ hc) (hlive _)
    rw [hrun, hi]
  · exact absurd (hdead _ hc) (hlive _)

/-- A connection arrives. It is lost if it merges. -/
theorem PoolInv.connect {lost : Nat} (h : PoolInv pids s lost) :
    ∃ d, PoolInv pids { s with queue := s.queue + 1, ready := true } (lost + d) ∧
      (d = 0 ↔ ¬ Merges s .connect) := by
  have hqueue := h.queue
  have hheld := h.held
  simp only [Pool.underway] at hqueue
  cases hready : s.ready with
  | false =>
    rw [hready, Bool.toNat_false] at hqueue hheld
    refine ⟨0, { h with held := ?_, queue := ?_ }, by simp [Merges, hready]⟩
    · simp only [Bool.toNat_true]
      omega
    · simp only [Pool.underway, Bool.toNat_true]
      omega
  | true =>
    rw [hready, Bool.toNat_true] at hqueue hheld
    refine ⟨1, { h with held := ?_, queue := ?_ }, by simp [Merges, hready]⟩
    · simp only [Bool.toNat_true]
      omega
    · simp only [Pool.underway, Bool.toNat_true]
      omega

/-- The parent collects the event of the listening socket. -/
theorem PoolInv.parentWait {lost : Nat} (h : PoolInv pids s lost) {events : List Event}
    (hevents : s.events = []) (hreports : Reports s.ready events) :
    PoolInv pids { s with events := events, ready := false } lost := by
  obtain ⟨hcount, hknown⟩ := hreports
  have hqueue := h.queue
  have hheld := h.held
  simp only [Pool.underway, hevents, List.count_nil] at hqueue hheld
  refine { h with known := hknown, held := ?_, queue := ?_ }
  · simp only [Bool.toNat_false, hcount]
    omega
  · simp only [Pool.underway, Bool.toNat_false, hcount]
    omega

/-- The parent handles an event. A notification merges if the child has an event, and
    then the connection of the parent's event is lost. -/
theorem PoolInv.parentHandle {lost : Nat} (h : PoolInv pids s lost) (hpos : ∀ q ∈ pids, 0 < q)
    {ev : Event} {events : List Event} {parent : Parent} {effects : List Effect} {leaves : Bool}
    (hevents : s.events = ev :: events) (hrun : s.parent.handle ev = .ok (parent, effects, leaves)) :
    ∃ d, PoolInv pids { s with
        parent := parent, events := if leaves then [] else events
        children := deliver s.children effects } (lost + d) ∧
      (d = 0 ↔ ¬ Merges s .parentHandle) := by
  have hknown := h.known
  rw [hevents, List.forall_mem_cons] at hknown
  have hqueue := h.queue
  have hheld := h.held
  simp only [Pool.underway, hevents] at hqueue hheld
  rcases hknown.1 with rfl | rfl
  · rw [Parent.handle, h.onListen hpos, Except.ok.injEq, Prod.mk.injEq, Prod.mk.injEq] at hrun
    obtain ⟨rfl, rfl, rfl⟩ := hrun
    rw [List.count_cons_self] at hqueue hheld
    have hlen : s.parent.subProcess.length = pids.length := by rw [h.slots, List.length_map]
    have hi := h.counter
    have hunread := h.unread _ hi
    -- the notified child holds one notification more, and has an event
    have hsum₁ := sum_update Child.held s.children (s.children s.parent.subProcessCounter).notify
      (Finset.mem_range.mpr hi)
    have hsum₂ := sum_update Child.underway s.children (s.children s.parent.subProcessCounter).notify
      (Finset.mem_range.mpr hi)
    simp only [Child.notify, Child.held, Child.underway, Bool.toNat_true] at hsum₁ hsum₂ hqueue hheld
    refine ⟨(s.children s.parent.subProcessCounter).ready.toNat,
      ⟨h.slots, ?_, h.running, hknown.2, fun j hj => ?_, ?_, ?_⟩, ?_⟩
    · rw [← hlen]
      exact Nat.mod_lt _ (by omega)
    · by_cases hji : j = s.parent.subProcessCounter
      · subst hji
        simp only [deliver, Function.update_self, Child.notify, Bool.toNat_true]
        omega
      · simpa [deliver, Function.update_of_ne hji] using h.unread j hj
    · simp only [deliver, Child.notify, Child.held, Bool.false_eq_true, if_false]
      omega
    · simp only [Pool.underway, deliver, Child.notify, Child.underway, Bool.false_eq_true, if_false]
      omega
    · simp [Merges, hevents]
  · obtain ⟨rfl, rfl, rfl⟩ : s.parent = parent ∧ [] = effects ∧ false = leaves := by
      simpa [Parent.handle] using hrun
    rw [List.count_cons_of_ne (by decide)] at hqueue hheld
    exact ⟨0, { h with known := hknown.2, held := hheld, queue := hqueue }, by simp [Merges, hevents]⟩

theorem PoolInv.childWait {lost : Nat} (h : PoolInv pids s lost) (hi : i < pids.length)
    {events : List ChildEvent} (hevents : (s.children i).events = [])
    (hreports : ChildReports (s.children i).ready events) :
    PoolInv pids { s with
      children := Function.update s.children i { s.children i with events := events, ready := false } }
      lost := by
  have hunread := h.unread i hi
  rw [hevents, List.count_nil] at hunread
  refine h.child (d := 0) hi ?_ rfl ?_
  · simp only [Bool.toNat_false, show List.count .pipe events = _ from hreports]
    omega
  · simp only [Child.underway, Bool.toNat_false, show List.count .pipe events = _ from hreports, hevents, List.count_nil]
    omega

theorem PoolInv.childHandle {lost : Nat} (h : PoolInv pids s lost) (hi : i < pids.length)
    {ev : ChildEvent} {events : List ChildEvent} (hevents : (s.children i).events = ev :: events)
    (hacc : (s.children i).accepting = false) :
    PoolInv pids { s with
      children := Function.update s.children i
        { (if ev = .pipe then (s.children i).recv else s.children i) with events := events } } lost := by
  have hunread := h.unread i hi
  rw [hevents] at hunread
  cases ev with
  | pipe =>
    rw [List.count_cons_self] at hunread
    refine h.child (d := 0) hi ?_ ?_ ?_
    · simp only [if_true, Child.recv]
      omega
    · simp only [if_true, Child.recv, Child.held, hacc, Bool.toNat_true, Bool.toNat_false]
      omega
    · simp only [if_true, Child.recv, Child.underway, hevents, hacc, Bool.toNat_true, Bool.toNat_false,
        List.count_cons_self]
      omega
  | other =>
    rw [List.count_cons_of_ne (by decide)] at hunread
    refine h.child (d := 0) hi hunread rfl ?_
    simp [Child.underway, hevents]

theorem PoolInv.childAccept {lost : Nat} (h : PoolInv pids s lost) (hi : i < pids.length)
    (hacc : (s.children i).accepting = true) :
    PoolInv pids { s with
      queue := s.queue - 1
      children := Function.update s.children i { s.children i with accepting := false } } lost := by
  refine h.child hi (h.unread i hi) ?_ ?_
  · simp only [Child.held, hacc, Bool.toNat_true, Bool.toNat_false, Nat.add_zero]
  · simp only [Child.underway, hacc, Bool.toNat_true, Bool.toNat_false, Nat.add_zero]

/-- A step loses a connection exactly if it merges. -/
theorem PoolInv.step {lost : Nat} (hpos : ∀ q ∈ pids, 0 < q) (h : PoolInv pids s lost)
    (hstep : PoolStep pids s a t) : ∃ d, PoolInv pids t (lost + d) ∧ (d = 0 ↔ ¬ Merges s a) := by
  cases hstep with
  | connect => exact h.connect
  | parentWait events hevents _ hreports => exact ⟨0, h.parentWait hevents hreports, by simp [Merges]⟩
  | parentHandle hevents hrun => exact h.parentHandle hpos hevents hrun
  | childWait events hi hevents _ hreports => exact ⟨0, h.childWait hi hevents hreports, by simp [Merges]⟩
  | childHandle hi hevents hacc => exact ⟨0, h.childHandle hi hevents hacc, by simp [Merges]⟩
  | childAccept hi hacc => exact ⟨0, h.childAccept hi hacc, by simp [Merges]⟩

/-- In a blocked state the queue holds what is lost. -/
theorem PoolInv.served_blocked {lost : Nat} (h : PoolInv pids s lost) (hblocked : Blocked pids s) :
    Served pids s ↔ lost = 0 := by
  obtain ⟨hready, hevents, hchildren⟩ := hblocked
  have hunder : s.underway pids = 0 := by
    rw [Pool.underway, hready, hevents, Bool.toNat_false, List.count_nil, Nat.zero_add]
    refine Finset.sum_eq_zero fun i hi => ?_
    obtain ⟨hr, he, ha⟩ := hchildren i (Finset.mem_range.mp hi)
    rw [Child.underway, hr, he, ha]
    rfl
  have hqueue := h.queue
  rw [hunder, Nat.zero_add] at hqueue
  constructor
  · rintro ⟨hzero, -⟩
    rw [← hqueue, hzero]
  · rintro rfl
    have hheld := h.held
    rw [hqueue, Nat.le_zero, Nat.add_eq_zero_iff] at hheld
    refine ⟨hqueue, fun i hi => ?_⟩
    have hi' := Finset.sum_eq_zero_iff.mp hheld.2 i (Finset.mem_range.mpr hi)
    rw [Child.held, Nat.add_eq_zero_iff] at hi'
    exact hi'.1

/-- A run that comes to rest has served every connection and every notification exactly
    if no arrival in it merged with an event that had not been collected. -/
theorem served_iff (hne : pids ≠ []) (hpos : ∀ q ∈ pids, 0 < q) {es : List Action}
    (hrun : Run (PoolStep pids) (.init pids) es s) (hblocked : Blocked pids s) :
    Served pids s ↔ Run (fun s a t => PoolStep pids s a t ∧ ¬ Merges s a) (.init pids) es s := by
  have hunique : ∀ s k k', PoolInv pids s k → PoolInv pids s k' → k = k' := by
    intro s k k' h h'
    exact Nat.add_left_cancel (h.queue.symm.trans h'.queue)
  obtain ⟨d, hinv, hd⟩ := Run.counted (PoolInv pids) Merges
    (fun _ _ _ _ h hstep => h.step hpos hstep) hunique hrun (init_poolInv hne)
  rw [hinv.served_blocked hblocked, Nat.zero_add, hd]

/-- The second client connects when the parent has passed the first one on. The two
    children take turns. -/
def twoConnects : List Action :=
  [.connect, .parentWait [.listen], .parentHandle, .connect, .childWait 0 [.pipe], .parentWait [.listen],
    .parentHandle, .childHandle 0, .childWait 1 [.pipe], .childAccept 0, .childHandle 1, .childAccept 1]

theorem twoConnects_run : ∃ s : Pool,
    Run (fun s a t => PoolStep [41, 42] s a t ∧ ¬ Merges s a) (.init [41, 42]) twoConnects s ∧
      Blocked [41, 42] s := by
  apply Exists.intro
  constructor
  · apply Run.cons ⟨.connect, by rintro ⟨⟩⟩
    apply Run.cons ⟨.parentWait [.listen] rfl rfl ⟨rfl, by simp⟩, id⟩
    apply Run.cons ⟨.parentHandle rfl rfl, by rintro ⟨-, ⟨⟩⟩⟩
    apply Run.cons ⟨.connect, by rintro ⟨⟩⟩
    apply Run.cons ⟨.childWait [.pipe] (by decide) rfl rfl rfl, id⟩
    apply Run.cons ⟨.parentWait [.listen] rfl rfl ⟨rfl, by simp⟩, id⟩
    apply Run.cons ⟨.parentHandle rfl rfl, by rintro ⟨-, ⟨⟩⟩⟩
    apply Run.cons ⟨.childHandle (by decide) rfl rfl, id⟩
    apply Run.cons ⟨.childWait [.pipe] (by decide) rfl rfl rfl, id⟩
    apply Run.cons ⟨.childAccept (by decide) rfl, id⟩
    apply Run.cons ⟨.childHandle (by decide) rfl rfl, id⟩
    exact Run.cons ⟨.childAccept (by decide) rfl, id⟩ (.nil _)
  · exact ⟨rfl, rfl, by decide⟩

/-- Both connections are served. -/
theorem served_iff_twoConnects : ∃ s, Run (PoolStep [41, 42]) (.init [41, 42]) twoConnects s ∧
    Blocked [41, 42] s ∧ Served [41, 42] s := by
  obtain ⟨s, hrun, hblocked⟩ := twoConnects_run
  exact ⟨s, hrun.of_and, hblocked, (served_iff (by simp) (by simp) hrun.of_and hblocked).mpr hrun⟩

/-- Two clients connect before the parent collects the event: it notifies a child once. -/
def mergedConnects : List Action :=
  [.connect, .connect, .parentWait [.listen], .parentHandle, .childWait 0 [.pipe], .childHandle 0, .childAccept 0]

theorem mergedConnects_run : ∃ s : Pool,
    Run (PoolStep [41]) (.init [41]) mergedConnects s ∧ Blocked [41] s ∧ s.queue = 1 := by
  apply Exists.intro
  constructor
  · apply Run.cons .connect
    apply Run.cons .connect
    apply Run.cons (.parentWait [.listen] rfl rfl ⟨rfl, by simp⟩)
    apply Run.cons (.parentHandle rfl rfl)
    apply Run.cons (.childWait [.pipe] (by decide) rfl rfl rfl)
    apply Run.cons (.childHandle (by decide) rfl rfl)
    exact Run.cons (.childAccept (by decide) rfl) (.nil _)
  · exact ⟨⟨rfl, rfl, by decide⟩, rfl⟩

/-- Two connections arrive before the parent collects the event: one is accepted, and
    then everybody is blocked with the other one in the queue. -/
theorem merged_connects_strand : ¬ ∀ pids es s, pids ≠ [] → (∀ q ∈ pids, 0 < q) →
    Run (PoolStep pids) (.init pids) es s → Blocked pids s → Served pids s := by
  intro h
  obtain ⟨s, hrun, hblocked, hqueue⟩ := mergedConnects_run
  have hserved := h [41] _ s (by simp) (by simp) hrun hblocked
  rw [hserved.1] at hqueue
  cases hqueue

end ProcessPool
