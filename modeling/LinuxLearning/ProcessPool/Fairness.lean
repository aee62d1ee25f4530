-- SUMMARY: The dispatch of the process pool is fair: the next live slot in cyclic order, and one turn for every live child between two of another.
import LinuxLearning.Common.RoundRobin
import LinuxLearning.ProcessPool.Reaping

/-!
# The fairness of the dispatch

The trace gives the counter and the live slots, which make a ring in the sense of
`RoundRobin`: a notification is a turn, and a reaped child is a place that dies.
-/

namespace ProcessPool

open Transition Parent

variable {pids qs : List Int} {q pid : Int} {before mid after trace es : List Effect}
  {sub : List Process} {st : Parent} {e : Effect} {i j k : Nat}

/-- The place that an effect gives a turn to. -/
def turn : Effect → Option Nat
  | .send i => some i
  | _ => none

/-- `sub_process_counter` after the effects of the trace. -/
def counterAfter (n : Nat) (trace : List Effect) : Nat :=
  trace.foldl (fun c e => match turn e with | some i => (i + 1) % n | none => c) 0

/-- The ring that the parent has when its trace is `trace`. -/
def ring (pids : List Int) (trace : List Effect) : RoundRobin.State where
  counter := counterAfter pids.length trace
  alive i := ∃ q, pids[i]? = some q ∧ Effect.reap q ∉ trace

/-- The counter is that of the ring, and every notification was a turn. -/
structure InTurn (pids : List Int) (st : Parent) (trace : List Effect) : Prop where
  counter : st.subProcessCounter = counterAfter pids.length trace
  steps : ∀ before e after, trace = before ++ e :: after →
    RoundRobin.Step pids.length (ring pids before) (turn e) (ring pids (before ++ [e]))

theorem counterAfter_concat {n : Nat} :
    counterAfter n (trace ++ [e]) = match turn e with | some i => (i + 1) % n | none => counterAfter n trace := by
  simp [counterAfter, List.foldl_append]

theorem ring_alive_of_append (h : (ring pids (trace ++ es)).alive i) : (ring pids trace).alive i := by
  obtain ⟨q, hq, hnot⟩ := h
  exact ⟨q, hq, fun hmem => hnot (List.mem_append_left _ hmem)⟩

/-- An effect that is no notification is a step of the ring. -/
theorem ring_step (he : turn e = none) :
    RoundRobin.Step pids.length (ring pids trace) (turn e) (ring pids (trace ++ [e])) := by
  have hring : ring pids (trace ++ [e]) = { ring pids trace with alive := (ring pids (trace ++ [e])).alive } := by
    simp [ring, counterAfter_concat, he]
  rw [he, hring]
  exact .die fun i h => ring_alive_of_append h

theorem InTurn.append (h : InTurn pids st trace) {st' : Parent}
    (hcounter : st'.subProcessCounter = counterAfter pids.length (trace ++ es))
    (hes : ∀ before e after, es = before ++ e :: after →
      RoundRobin.Step pids.length (ring pids (trace ++ before)) (turn e) (ring pids (trace ++ before ++ [e]))) :
    InTurn pids st' (trace ++ es) :=
  ⟨hcounter, forall_split_append h.steps hes⟩

/-- The effects of the trace between two points are a run of the ring. -/
theorem InTurn.run (h : InTurn pids st trace) (heq : trace = before ++ mid ++ after) :
    Run (RoundRobin.Step pids.length) (ring pids before) (mid.map turn) (ring pids (before ++ mid)) := by
  induction mid generalizing before with
  | nil =>
    rw [List.append_nil]
    exact .nil _
  | cons e mid ih =>
    have hstep := h.steps before e (mid ++ after) (by simpa using heq)
    have hrest : Run (RoundRobin.Step pids.length) (ring pids (before ++ [e])) (mid.map turn)
        (ring pids (before ++ [e] ++ mid)) := ih (by simpa using heq)
    rw [List.append_assoc, List.singleton_append] at hrest
    exact .cons hstep hrest

theorem counterAfter_quiet (hes : ∀ e ∈ es, turn e = none) {n : Nat} :
    counterAfter n (trace ++ es) = counterAfter n trace := by
  induction es generalizing trace with
  | nil => rw [List.append_nil]
  | cons e es ih =>
    rw [List.forall_mem_cons] at hes
    rw [← List.singleton_append, ← List.append_assoc, ih hes.2, counterAfter_concat, hes.1]

/-- Effects without a notification. -/
theorem InTurn.quiet (h : InTurn pids st trace) {st' : Parent}
    (hcounter : st'.subProcessCounter = st.subProcessCounter) (hes : ∀ e ∈ es, turn e = none) :
    InTurn pids st' (trace ++ es) := by
  refine h.append (by rw [hcounter, h.counter, counterAfter_quiet hes]) fun before e after heq => ?_
  exact ring_step (hes e (by simp [heq]))

namespace Parent

theorem waitLoop_quiet : ∀ e ∈ (waitLoop qs sub).2, turn e = none := by
  induction qs generalizing sub with
  | nil => nofun
  | cons q qs ih =>
    intro e he
    have heff : (waitLoop (q :: qs) sub).2 =
        (Effect.reap q :: (joinLoop q 0 sub).2) ++ (waitLoop qs (joinLoop q 0 sub).1).2 := rfl
    rw [heff, List.mem_append, List.mem_cons] at he
    rcases he with (rfl | he) | he
    · rfl
    · obtain ⟨j, -, rfl⟩ := joinLoop_closes q 0 sub e he
      rfl
    · exact ih e he

theorem onSignal_quiet (st : Parent) (sig : Signal) :
    (onSignal st sig).1.subProcessCounter = st.subProcessCounter ∧
    ∀ e ∈ (onSignal st sig).2, turn e = none := by
  have hkill : ∀ e ∈ killLoop st.subProcess, turn e = none := by
    intro e he
    obtain ⟨p, -, -, rfl⟩ := mem_killLoop.mp he
    rfl
  cases sig with
  | chld pids => exact ⟨rfl, waitLoop_quiet⟩
  | term => exact ⟨rfl, hkill⟩
  | int => exact ⟨rfl, hkill⟩
  | other => exact ⟨rfl, nofun⟩

theorem signalLoop_quiet (sigs : List Signal) (st : Parent) :
    (signalLoop sigs st).1.subProcessCounter = st.subProcessCounter ∧
    ∀ e ∈ (signalLoop sigs st).2, turn e = none := by
  induction sigs generalizing st with
  | nil => exact ⟨rfl, nofun⟩
  | cons sig sigs ih =>
    obtain ⟨hcounter, hquiet⟩ := onSignal_quiet st sig
    obtain ⟨hcounter', hquiet'⟩ := ih (onSignal st sig).1
    refine ⟨hcounter'.trans hcounter, fun e he => ?_⟩
    rcases List.mem_append.mp he with he | he
    · exact hquiet e he
    · exact hquiet' e he

theorem live_slotsAfter_iff (hpos : ∀ q ∈ pids, 0 < q) :
    Live (slotsAfter pids trace) i ↔ (ring pids trace).alive i := by
  refine ⟨live_slotsAfter, fun ⟨q, hq, hnot⟩ => ⟨_, slotsAfter_getElem hq, ?_⟩⟩
  have hqpos := hpos q (List.mem_of_getElem? hq)
  simp only [hnot, if_false]
  omega

theorem Dead.not_live (h : Dead sub i) : ¬ Live sub i := by
  obtain ⟨p, hp, hdied⟩ := h
  rintro ⟨p', hp', hlive⟩
  rw [hp, Option.some.injEq] at hp'
  exact hlive (hp' ▸ hdied)

/-- The slot that the search finds is the live one nearest to the counter. -/
theorem nearest (hc : k < sub.length) {c : Nat} (hlt : c < sub.length) (hdead : DeadUpTo sub c k)
    (hj : j < sub.length) (hlive : Live sub j) :
    RoundRobin.dist sub.length c ((c + k) % sub.length) ≤ RoundRobin.dist sub.length c j := by
  rw [RoundRobin.dist_add hlt hc]
  by_contra hnear
  have hdist := hdead _ (Nat.lt_of_not_le hnear)
  rw [RoundRobin.add_dist hlt hj] at hdist
  exact hdist.not_live hlive

/-- Every event is a turn, or leaves the counter as it is. -/
theorem handle_inTurn (hpos : ∀ q ∈ pids, 0 < q) (hinv : Inv pids st trace) (h : InTurn pids st trace)
    {ev : Event} {st' : Parent} {leaves : Bool} (hrun : handle st ev = .ok (st', es, leaves)) :
    InTurn pids st' (trace ++ es) := by
  cases ev with
  | listen =>
    have hlen : st.subProcess.length = pids.length := by
      rw [hinv.joined.sub, slotsAfter, List.length_map]
    have hc : st.subProcessCounter < st.subProcess.length := hlen ▸ hinv.counter
    rcases onListen_ok hc with ⟨i, hi, hlive, hfound, hrun'⟩ | ⟨hdead, hrun'⟩
    · cases hrun.symm.trans hrun'
      rcases hfound with ⟨k, hk, hik, -, hdead⟩ | ⟨-, hdead⟩
      swap
      · exact absurd hlive (hdead i hi).not_live
      have hring : ring pids (trace ++ [.send i]) =
          { ring pids trace with counter := (i + 1) % pids.length } := by
        simp [ring, counterAfter_concat, turn]
      have hlive' : ∀ j, (ring pids trace).alive j → Live st.subProcess j := by
        intro j hj
        rw [hinv.joined.sub]
        exact (live_slotsAfter_iff hpos).mpr hj
      refine h.append ?_ fun before e after heq => ?_
      · rw [counterAfter_concat, ← hlen]
        rfl
      obtain ⟨rfl, rfl, rfl⟩ : before = [] ∧ e = .send i ∧ after = [] := by
        cases before with
        | nil => simpa [eq_comm] using heq
        | cons e' before => simp at heq
      rw [List.append_nil, hring]
      refine .turn (hlen ▸ hi) ((live_slotsAfter_iff hpos).mp (hinv.joined.sub ▸ hlive)) fun j hj hjlive => ?_
      have hnear := nearest hk hc hdead (hlen.symm ▸ hj) (hlive' j hjlive)
      rw [← hik, hlen, h.counter] at hnear
      exact hnear
    · cases hrun.symm.trans hrun'
      exact h.quiet rfl fun _ he => absurd he List.not_mem_nil
  | signals received =>
    cases hrun
    exact h.quiet (signalLoop_quiet received st).1 (signalLoop_quiet received st).2
  | other =>
    cases hrun
    exact h.quiet rfl fun _ he => absurd he List.not_mem_nil

end Parent

theorem init_inTurn : InTurn pids (.init pids) [] := by
  refine ⟨rfl, fun before e after h => ?_⟩
  simp at h

/-- The invariant of the event loop with the order of the notifications. -/
def Turns (pids : List Int) (st : ParentState) : Prop :=
  Inv pids st.parent st.trace ∧ InTurn pids st.parent st.trace

theorem ParentStep.turns (hpos : ∀ q ∈ pids, 0 < q) {s t : ParentState} {ev : Option Event}
    (h : Turns pids s) (hstep : ParentStep pids s ev t) : Turns pids t := by
  refine ⟨hstep.inv hpos h.1, ?_⟩
  cases hstep with
  | wait events _ _ => exact h.2
  | handle _ _ hrun => exact Parent.handle_inTurn hpos h.1 h.2 hrun

/-- Between two consecutive notifications of one child, every other one that stays alive
    gets one. -/
theorem InTurn.fair (h : InTurn pids st trace) (heq : trace = before ++ .send i :: (mid ++ .send i :: after))
    (hnot : .send i ∉ mid) (hji : j ≠ i) (hq : pids[j]? = some q) (hlive : Effect.reap q ∉ before ++ mid) :
    mid.count (.send j) = 1 := by
  have hsplit : trace = before ++ .send i :: (mid ++ [.send i]) ++ after := by simp [heq]
  have hrun := h.run hsplit
  have hcount : ∀ l : List Effect, (l.map turn).count (some j) = l.count (.send j) := by
    intro l
    induction l with
    | nil => rfl
    | cons e l ih =>
      cases e <;> simp [turn, List.count_cons, ih]
  have hmem : some i ∉ mid.map turn := by
    intro hmem
    obtain ⟨e, he, hturn⟩ := List.mem_map.mp hmem
    cases e with
    | send i' =>
      cases hturn
      exact hnot he
    | close i' => cases hturn
    | kill q' => cases hturn
    | reap q' => cases hturn
  rw [List.map_cons, List.map_append, List.map_singleton] at hrun
  rw [← hcount]
  refine RoundRobin.run_fair hrun hmem (List.getElem?_eq_some_iff.mp hq).1 hji ⟨q, hq, ?_⟩
  simp only [List.mem_append, not_or] at hlive
  simp [hlive]

/-- What the parent does with a connection, and how it has shared them out: the search ends
    within one round, at the first live slot from the counter on, or the parent stops. -/
structure Dispatches (pids : List Int) (st : ParentState) : Prop where
  counter : st.parent.subProcessCounter < pids.length
  search : ∃ i, searchLoop st.parent.subProcess st.parent.subProcessCounter pids.length
    st.parent.subProcessCounter = .ok i
  notifies : (∃ i, Live st.parent.subProcess i) → ∃ k i, k < pids.length ∧
    i = (st.parent.subProcessCounter + k) % pids.length ∧ Live st.parent.subProcess i ∧
    (∀ j, j < k → ¬ Live st.parent.subProcess ((st.parent.subProcessCounter + j) % pids.length)) ∧
    st.parent.handle .listen =
      .ok ({ st.parent with subProcessCounter := (i + 1) % pids.length }, [.send i], false)
  stops : (∀ i, ¬ Live st.parent.subProcess i) →
    st.parent.handle .listen = .ok ({ st.parent with stop := true }, [], true)
  fair : ∀ i before mid after, st.trace = before ++ .send i :: (mid ++ .send i :: after) →
    .send i ∉ mid → ∀ (j : Nat) q, j ≠ i → pids[j]? = some q → Effect.reap q ∉ before ++ mid →
    mid.count (.send j) = 1

theorem Turns.dispatches {st : ParentState} (h : Turns pids st) : Dispatches pids st := by
  obtain ⟨hinv, hturn⟩ := h
  have hlen : st.parent.subProcess.length = pids.length := by
    rw [hinv.joined.sub, slotsAfter, List.length_map]
  have hc : st.parent.subProcessCounter < st.parent.subProcess.length := hlen ▸ hinv.counter
  obtain ⟨i, hsearch, -⟩ := search_ok hc
  have hlisten := onListen_ok hc
  have hbound : ∀ {i}, Live st.parent.subProcess i → i < st.parent.subProcess.length := by
    rintro i ⟨_, hp, _⟩
    exact (List.getElem?_eq_some_iff.mp hp).1
  refine ⟨hinv.counter, ⟨i, hlen ▸ hsearch⟩, ?_, fun hnone => ?_,
    fun i before mid after heq hnot j q hji hq hlive => hturn.fair heq hnot hji hq hlive⟩
  · rintro ⟨j, hj⟩
    rcases hlisten with ⟨i, hi, hlive, hfound, hrun⟩ | ⟨hdead, -⟩
    · rcases hfound with ⟨k, hk, hik, -, hdead⟩ | ⟨-, hdead⟩
      · rw [hlen] at hk hik hrun
        refine ⟨k, i, hk, hik, hlive, fun j hj => ?_, hrun⟩
        rw [← hlen]
        exact (hdead j hj).not_live
      · exact absurd hlive (hdead i hi).not_live
    · exact absurd hj (hdead j (hbound hj)).not_live
  · rcases hlisten with ⟨i, -, hlive, -⟩ | ⟨-, hrun⟩
    · exact absurd hlive (hnone i)
    · exact hrun

/-- In every run of the parent the dispatch is a round robin among the live children. -/
theorem run_dispatches (hne : pids ≠ []) (hpos : ∀ q ∈ pids, 0 < q) {evs : List (Option Event)}
    {st : ParentState} (hrun : Run (ParentStep pids) (.init pids) evs st) : Dispatches pids st := by
  have h : Turns pids st :=
    Run.invariant (I := Turns pids) (fun _ _ _ => ParentStep.turns hpos) hrun ⟨init_inv hne, init_inTurn⟩
  exact h.dispatches

/-- Three children, of which the one at the counter is reaped between two notifications of
    the first. -/
theorem run_dispatches_three : ∃ st : ParentState,
    st.trace = [.send 0, .reap 42, .close 1, .send 2, .send 0] ∧ Dispatches [41, 42, 43] st := by
  refine ⟨⟨⟨[⟨41⟩, ⟨-1⟩, ⟨43⟩], 1, false⟩, [], [.send 0, .reap 42, .close 1, .send 2, .send 0]⟩, rfl, ?_⟩
  apply run_dispatches (by simp) (by simp)
  apply Run.cons (.wait [.listen, .signals [.chld [42]], .listen, .listen] rfl rfl)
  apply Run.cons (.handle rfl (by simp [Waits, Event.waited]) rfl)
  apply Run.cons (.handle rfl (by simp [Waits, Event.waited, Signal.waited, ParentState.init]) rfl)
  apply Run.cons (.handle rfl (by simp [Waits, Event.waited]) rfl)
  exact Run.cons (.handle rfl (by simp [Waits, Event.waited]) rfl) (.nil _)

end ProcessPool
