-- SUMMARY: The slots of the process pool follow its children: what every run of the parent says about reaping, closing, killing, sending and stopping.
import Mathlib.Data.List.Nodup
import LinuxLearning.Common.Run
import LinuxLearning.ProcessPool.RoundRobin

/-!
# Slots and children

The trace says which children have been reaped. The slots, the closed pipe ends and the
stop flag are functions of it, and no kill and no notification comes after the reaping
of its child.
-/

namespace ProcessPool

open Transition

variable {pids qs : List Int} {q pid : Int} {trace es : List Effect} {sub : List Process}
  {st : Parent} {i k : Nat}

/-- The slots when the trace has reaped what it has. -/
def slotsAfter (pids : List Int) (trace : List Effect) : List Process :=
  pids.map fun q => ⟨if Effect.reap q ∈ trace then -1 else q⟩

/-- The child of slot `i` has been reaped. -/
def reapedAt (pids : List Int) (trace : List Effect) (i : Nat) : Bool :=
  pids[i]?.any fun q => Effect.reap q ∈ trace

/-- The slots and the closed pipe ends are what the trace says. -/
structure Joined (pids : List Int) (sub : List Process) (trace : List Effect) : Prop where
  sub : sub = slotsAfter pids trace
  closed : ∀ i, trace.count (.close i) = if reapedAt pids trace i then 1 else 0

/-- A kill or a notification is for a child that has not been reaped. -/
def Allowed (pids : List Int) (before : List Effect) : Effect → Prop
  | .kill q => q ∈ pids ∧ Effect.reap q ∉ before
  | .send i => ∃ q, pids[i]? = some q ∧ Effect.reap q ∉ before
  | _ => True

def Safe (pids : List Int) (trace : List Effect) : Prop :=
  ∀ before e after, trace = before ++ e :: after → Allowed pids before e

/-- The invariant of the event loop. -/
structure Inv (pids : List Int) (st : Parent) (trace : List Effect) : Prop where
  joined : Joined pids st.subProcess trace
  counter : st.subProcessCounter < pids.length
  safe : Safe pids trace
  stop : st.stop = true ↔ ∀ q ∈ pids, Effect.reap q ∈ trace

theorem Safe.append (h : Safe pids trace)
    (hes : ∀ before e after, es = before ++ e :: after → Allowed pids (trace ++ before) e) :
    Safe pids (trace ++ es) :=
  forall_split_append h hes

/-- Effects without reaping are allowed together if each one is allowed. -/
theorem Safe.append_of_allowed (h : Safe pids trace) (hes : ∀ e ∈ es, Allowed pids trace e)
    (hreap : ∀ q, Effect.reap q ∉ es) : Safe pids (trace ++ es) := by
  refine h.append ?_
  rintro before e after rfl
  have he := hes e (by simp)
  have hbefore : ∀ q, Effect.reap q ∉ trace → Effect.reap q ∉ trace ++ before := by
    intro q hq hmem
    rcases List.mem_append.mp hmem with hmem | hmem
    · exact hq hmem
    · exact hreap q (List.mem_append_left _ hmem)
  cases e with
  | kill q => exact ⟨he.1, hbefore q he.2⟩
  | send i =>
    obtain ⟨q, hq, hnot⟩ := he
    exact ⟨q, hq, hbefore q hnot⟩
  | close i => trivial
  | reap q => trivial

/-- A kill or a notification of a child that has not been reaped. -/
def Quiet (pids : List Int) (trace : List Effect) (e : Effect) : Prop :=
  match e with
  | .kill q => q ∈ pids ∧ Effect.reap q ∉ trace
  | .send i => ∃ q, pids[i]? = some q ∧ Effect.reap q ∉ trace
  | _ => False

/-- Kills and notifications leave everything else as it is. -/
theorem Inv.quiet (h : Inv pids st trace) (hes : ∀ e ∈ es, Quiet pids trace e) :
    Inv pids st (trace ++ es) ∧ ∀ q, Effect.reap q ∉ es := by
  have hreap : ∀ q, Effect.reap q ∉ es := fun q hq => hes _ hq
  have hclose : ∀ i, Effect.close i ∉ es := fun i hi => hes _ hi
  have hmem : ∀ q, Effect.reap q ∈ trace ++ es ↔ Effect.reap q ∈ trace := by
    intro q
    simp [hreap q]
  have hsafe : Safe pids (trace ++ es) := by
    refine h.safe.append_of_allowed (fun e he => ?_) hreap
    have hq := hes e he
    cases e with
    | kill q => exact hq
    | send i => exact hq
    | close i => trivial
    | reap q => trivial
  refine ⟨⟨⟨?_, fun i => ?_⟩, h.counter, hsafe, ?_⟩, hreap⟩
  · simp only [h.joined.sub, slotsAfter, hmem]
  · rw [List.count_append, h.joined.closed, List.count_eq_zero.mpr (hclose i), reapedAt, reapedAt]
    simp only [hmem, Nat.add_zero]
  · simp only [h.stop, hmem]

namespace Parent

theorem joinLoop_cons (pid : Int) (i : Nat) (p : Process) (sub : List Process) :
    joinLoop pid i (p :: sub) =
      if p.pid = pid then (⟨-1⟩ :: (joinLoop pid (i + 1) sub).1, .close i :: (joinLoop pid (i + 1) sub).2)
      else (p :: (joinLoop pid (i + 1) sub).1, (joinLoop pid (i + 1) sub).2) := rfl

theorem joinLoop_sub (pid : Int) (i : Nat) (sub : List Process) :
    (joinLoop pid i sub).1 = sub.map fun p => if p.pid = pid then ⟨-1⟩ else p := by
  induction sub generalizing i with
  | nil => rfl
  | cons p sub ih =>
    rw [joinLoop_cons, List.map_cons, ← ih (i + 1)]
    split <;> rfl

theorem joinLoop_closes (pid : Int) (i : Nat) (sub : List Process) :
    ∀ e ∈ (joinLoop pid i sub).2, ∃ j, i ≤ j ∧ e = .close j := by
  induction sub generalizing i with
  | nil => nofun
  | cons p sub ih =>
    have htail : ∀ e ∈ (joinLoop pid (i + 1) sub).2, ∃ j, i ≤ j ∧ e = .close j := by
      intro e he
      obtain ⟨j, hj, rfl⟩ := ih (i + 1) e he
      exact ⟨j, by omega, rfl⟩
    rw [joinLoop_cons]
    split
    · exact List.forall_mem_cons.mpr ⟨⟨i, Nat.le_refl i, rfl⟩, htail⟩
    · exact htail

/-- The pipe end of a slot is closed if its child is joined. -/
theorem joinLoop_count (pid : Int) (i k : Nat) (sub : List Process) :
    (joinLoop pid i sub).2.count (.close (i + k)) =
      if sub[k]?.any (fun p => p.pid = pid) then 1 else 0 := by
  induction sub generalizing i k with
  | nil => rfl
  | cons p sub ih =>
    have hnot : Effect.close i ∉ (joinLoop pid (i + 1) sub).2 := by
      intro hmem
      obtain ⟨j, hj, heq⟩ := joinLoop_closes pid (i + 1) sub _ hmem
      obtain rfl := Effect.close.inj heq
      omega
    have hzero := List.count_eq_zero.mpr hnot
    rw [joinLoop_cons]
    cases k with
    | zero =>
      by_cases hp : p.pid = pid
      · simp [hp, hzero]
      · simp [hp, hzero]
    | succ k =>
      have ih := ih (i + 1) k
      rw [show i + 1 + k = i + (k + 1) by omega] at ih
      by_cases hp : p.pid = pid
      · simp [hp, ih]
      · simp [hp, ih]

/-- A child that `waitpid` returns is joined. -/
theorem join_ok (hpos : ∀ q ∈ pids, 0 < q) (h : Joined pids sub trace) (hq : q ∈ pids)
    (hnew : Effect.reap q ∉ trace) :
    Joined pids (joinLoop q 0 sub).1 (trace ++ .reap q :: (joinLoop q 0 sub).2) := by
  have hcloses := joinLoop_closes q 0 sub
  have hcount := fun k => joinLoop_count q 0 k sub
  have hsub := joinLoop_sub q 0 sub
  generalize (joinLoop q 0 sub).1 = sub' at hsub ⊢
  generalize (joinLoop q 0 sub).2 = es at hcloses hcount ⊢
  obtain ⟨rfl, hclosed⟩ := h
  have hreap : ∀ q', Effect.reap q' ∈ trace ++ .reap q :: es ↔ Effect.reap q' ∈ trace ∨ q' = q := by
    intro q'
    have hnot : Effect.reap q' ∉ es := by
      intro hmem
      obtain ⟨j, -, heq⟩ := hcloses _ hmem
      cases heq
    simp [hnot]
  -- a slot has the pid of the child exactly if it is the slot of the child
  have hslot : ∀ q' ∈ pids, (if Effect.reap q' ∈ trace then -1 else q') = q ↔ q' = q := by
    intro q' hq'
    have hqpos := hpos q hq
    by_cases hr : Effect.reap q' ∈ trace
    · rw [if_pos hr]
      constructor
      · intro h
        omega
      · rintro rfl
        exact absurd hr hnew
    · rw [if_neg hr]
  constructor
  · rw [hsub, slotsAfter, slotsAfter, List.map_map]
    refine List.map_congr_left fun q' hq' => ?_
    simp only [Function.comp, hreap, hslot q' hq']
    by_cases hqq : q' = q
    · simp [hqq]
    · simp [hqq]
  · intro i
    have hcount := hcount i
    rw [Nat.zero_add, slotsAfter, List.getElem?_map] at hcount
    rw [List.count_append, hclosed i, List.count_cons_of_ne (by nofun), hcount, reapedAt, reapedAt]
    cases hi : pids[i]? with
    | none => rfl
    | some q' =>
      have hq' := List.mem_of_getElem? hi
      simp only [Option.any_some, Option.map_some, hslot q' hq', hreap, decide_eq_true_eq]
      by_cases hqq : q' = q
      · simp [hqq, hnew]
      · simp [hqq]

theorem joinLoop_allowed (before : List Effect) (q : Int) (sub : List Process) :
    ∀ e ∈ Effect.reap q :: (joinLoop q 0 sub).2, Allowed pids before e := by
  refine List.forall_mem_cons.mpr ⟨trivial, fun e he => ?_⟩
  obtain ⟨j, -, rfl⟩ := joinLoop_closes q 0 sub e he
  trivial

/-- The children that the `waitpid` loop returns are joined. -/
theorem waitLoop_ok (hpos : ∀ q ∈ pids, 0 < q) (h : Joined pids sub trace) (hsafe : Safe pids trace)
    (hqs : qs.Nodup) (hwait : ∀ q ∈ qs, q ∈ pids ∧ Effect.reap q ∉ trace) :
    Joined pids (waitLoop qs sub).1 (trace ++ (waitLoop qs sub).2) ∧
    Safe pids (trace ++ (waitLoop qs sub).2) ∧
    ∀ q, Effect.reap q ∈ (waitLoop qs sub).2 ↔ q ∈ qs := by
  induction qs generalizing sub trace with
  | nil => simpa [waitLoop] using ⟨h, hsafe⟩
  | cons q qs ih =>
    rw [List.forall_mem_cons] at hwait
    obtain ⟨hq, hqs⟩ := List.nodup_cons.mp hqs
    have hjoin := join_ok hpos h hwait.1.1 hwait.1.2
    have hnoreap : ∀ q', Effect.reap q' ∈ Effect.reap q :: (joinLoop q 0 sub).2 ↔ q' = q := by
      intro q'
      have hnot : Effect.reap q' ∉ (joinLoop q 0 sub).2 := by
        intro hmem
        obtain ⟨j, -, heq⟩ := joinLoop_closes q 0 sub _ hmem
        cases heq
      simp [hnot]
    have hsafe' : Safe pids (trace ++ .reap q :: (joinLoop q 0 sub).2) := by
      refine hsafe.append ?_
      rintro before e after heq
      exact joinLoop_allowed _ q sub e (heq ▸ by simp)
    obtain ⟨hjoin', hsafe'', hmem⟩ := ih hjoin hsafe' hqs fun q' hq' => by
      refine ⟨(hwait.2 q' hq').1, fun hr => ?_⟩
      rcases List.mem_append.mp hr with hr | hr
      · exact (hwait.2 q' hq').2 hr
      · exact hq ((hnoreap q').mp hr ▸ hq')
    have heff : (waitLoop (q :: qs) sub).2 =
        (Effect.reap q :: (joinLoop q 0 sub).2) ++ (waitLoop qs (joinLoop q 0 sub).1).2 := rfl
    rw [heff, ← List.append_assoc]
    refine ⟨hjoin', hsafe'', fun q' => ?_⟩
    rw [List.mem_append, hnoreap, hmem, List.mem_cons]

theorem stopLoop_eq (sub : List Process) : stopLoop sub = true ↔ ∀ p ∈ sub, p.pid = -1 := by
  induction sub with
  | nil => simp [stopLoop]
  | cons p sub ih =>
    rw [List.forall_mem_cons, ← ih, stopLoop]
    by_cases hp : p.pid = -1
    · simp [hp]
    · simp [hp]

theorem mem_killLoop {e : Effect} : e ∈ killLoop sub ↔ ∃ p ∈ sub, p.pid ≠ -1 ∧ e = .kill p.pid := by
  induction sub with
  | nil => simp [killLoop]
  | cons p sub ih =>
    rw [killLoop]
    by_cases hp : p.pid = -1
    · simp [hp, ih]
    · simp [hp, ih]

theorem slotsAfter_getElem (hq : pids[i]? = some q) :
    (slotsAfter pids trace)[i]? = some ⟨if Effect.reap q ∈ trace then -1 else q⟩ := by
  rw [slotsAfter, List.getElem?_map, hq]
  rfl

theorem stopLoop_slotsAfter (hpos : ∀ q ∈ pids, 0 < q) :
    stopLoop (slotsAfter pids trace) = true ↔ ∀ q ∈ pids, Effect.reap q ∈ trace := by
  rw [stopLoop_eq, slotsAfter, List.forall_mem_map]
  refine forall₂_congr fun q hq => ?_
  have hqpos := hpos q hq
  by_cases hr : Effect.reap q ∈ trace
  · simp [hr]
  · simp only [hr, if_false, iff_false]
    omega

/-- The kills are of children that have not been reaped. -/
theorem killLoop_quiet (hjoined : Joined pids sub trace) : ∀ e ∈ killLoop sub, Quiet pids trace e := by
  intro e he
  obtain ⟨p, hp, hlive, rfl⟩ := mem_killLoop.mp he
  rw [hjoined.sub, slotsAfter, List.mem_map] at hp
  obtain ⟨q, hq, rfl⟩ := hp
  by_cases hr : Effect.reap q ∈ trace
  · simp [hr] at hlive
  · simp only [hr, if_false]
    exact ⟨hq, hr⟩

/-- A signal keeps the invariant, and reaps what `waitpid` returns for it. -/
theorem onSignal_ok (hpos : ∀ q ∈ pids, 0 < q) (h : Inv pids st trace) {sig : Signal}
    (hnodup : sig.waited.Nodup) (hwait : ∀ q ∈ sig.waited, q ∈ pids ∧ Effect.reap q ∉ trace) :
    Inv pids (onSignal st sig).1 (trace ++ (onSignal st sig).2) ∧
    ∀ q, Effect.reap q ∈ (onSignal st sig).2 → q ∈ sig.waited := by
  have hkill := h.quiet (killLoop_quiet h.joined)
  cases sig with
  | chld qs =>
    obtain ⟨hjoined, hsafe, hmem⟩ := waitLoop_ok hpos h.joined h.safe (show qs.Nodup from hnodup) hwait
    refine ⟨⟨hjoined, h.counter, hsafe, ?_⟩, fun q => (hmem q).mp⟩
    change stopLoop (waitLoop qs st.subProcess).1 = true ↔ _
    rw [hjoined.sub, stopLoop_slotsAfter hpos]
    rfl
  | term => exact ⟨hkill.1, fun q hr => absurd hr (hkill.2 q)⟩
  | int => exact ⟨hkill.1, fun q hr => absurd hr (hkill.2 q)⟩
  | other =>
    change Inv pids st (trace ++ []) ∧ ∀ q, Effect.reap q ∈ [] → _
    rw [List.append_nil]
    exact ⟨h, nofun⟩

theorem signalLoop_ok (hpos : ∀ q ∈ pids, 0 < q) (h : Inv pids st trace) {sigs : List Signal}
    (hnodup : (sigs.flatMap Signal.waited).Nodup)
    (hwait : ∀ q ∈ sigs.flatMap Signal.waited, q ∈ pids ∧ Effect.reap q ∉ trace) :
    Inv pids (signalLoop sigs st).1 (trace ++ (signalLoop sigs st).2) := by
  induction sigs generalizing st trace with
  | nil =>
    change Inv pids st (trace ++ [])
    rwa [List.append_nil]
  | cons sig sigs ih =>
    rw [List.flatMap_cons, List.nodup_append] at hnodup
    obtain ⟨hsig, hsigs, hdisj⟩ := hnodup
    rw [List.flatMap_cons, List.forall_mem_append] at hwait
    obtain ⟨hinv, hreaps⟩ := onSignal_ok hpos h hsig hwait.1
    have hrest := ih hinv hsigs fun q hq => by
      refine ⟨(hwait.2 q hq).1, fun hr => ?_⟩
      rcases List.mem_append.mp hr with hr | hr
      · exact (hwait.2 q hq).2 hr
      · exact hdisj q (hreaps q hr) q hq rfl
    rw [List.append_assoc] at hrest
    exact hrest

theorem live_slotsAfter (h : Live (slotsAfter pids trace) i) :
    ∃ q, pids[i]? = some q ∧ Effect.reap q ∉ trace := by
  obtain ⟨p, hp, hlive⟩ := h
  rw [slotsAfter, List.getElem?_map, Option.map_eq_some_iff] at hp
  obtain ⟨q, hq, rfl⟩ := hp
  refine ⟨q, hq, fun hr => ?_⟩
  simp [hr] at hlive

theorem dead_slotsAfter (hpos : ∀ q ∈ pids, 0 < q) (hq : pids[i]? = some q)
    (h : Dead (slotsAfter pids trace) i) : Effect.reap q ∈ trace := by
  obtain ⟨p, hp, hdied⟩ := h
  rw [slotsAfter_getElem hq, Option.some.injEq] at hp
  subst hp
  by_contra hr
  have hqpos := hpos q (List.mem_of_getElem? hq)
  simp only [hr, if_false] at hdied
  omega

/-- Every event is handled without a fault, and keeps the invariant. -/
theorem handle_ok (hpos : ∀ q ∈ pids, 0 < q) (h : Inv pids st trace) {ev : Event}
    (hwaits : Waits pids trace ev) :
    ∃ st' effects leaves, handle st ev = .ok (st', effects, leaves) ∧
      Inv pids st' (trace ++ effects) := by
  cases ev with
  | listen =>
    have hlen : st.subProcess.length = pids.length := by
      rw [h.joined.sub, slotsAfter, List.length_map]
    rcases onListen_ok (hlen ▸ h.counter) with ⟨i, hi, hlive, -, hrun⟩ | ⟨hdead, hrun⟩
    · have hquiet : ∀ e ∈ [Effect.send i], Quiet pids trace e := by
        intro e he
        rw [List.mem_singleton.mp he]
        exact live_slotsAfter (h.joined.sub ▸ hlive)
      have hsend := h.quiet hquiet
      refine ⟨_, _, _, hrun, { hsend.1 with counter := ?_ }⟩
      rw [← hlen]
      exact Nat.mod_lt _ (by omega)
    · have hall : ∀ q ∈ pids, Effect.reap q ∈ trace := by
        intro q hq
        obtain ⟨i, hi⟩ := List.mem_iff_getElem?.mp hq
        have hi' := (List.getElem?_eq_some_iff.mp hi).1
        exact dead_slotsAfter hpos hi (h.joined.sub ▸ hdead i (hlen ▸ hi'))
      refine ⟨_, _, _, hrun, ?_⟩
      rw [List.append_nil]
      exact { h with stop := iff_of_true rfl hall }
  | signals received =>
    exact ⟨_, _, _, rfl, signalLoop_ok hpos h hwaits.1 hwaits.2⟩
  | other =>
    refine ⟨_, _, _, rfl, ?_⟩
    rwa [List.append_nil]

end Parent

theorem init_inv (hne : pids ≠ []) : Inv pids (.init pids) [] where
  joined := by
    refine ⟨?_, fun i => ?_⟩
    · simp [Parent.init, slotsAfter]
    · cases hi : pids[i]? <;> simp [reapedAt, hi]
  counter := List.length_pos_iff.mpr hne
  safe := by
    intro before e after h
    simp at h
  stop := by
    obtain ⟨q, hq⟩ := List.exists_mem_of_ne_nil pids hne
    refine iff_of_false (by simp [Parent.init]) fun h => ?_
    cases h q hq

theorem ParentStep.inv (hpos : ∀ q ∈ pids, 0 < q) {s t : ParentState} {ev : Option Event}
    (h : Inv pids s.parent s.trace) (hstep : ParentStep pids s ev t) : Inv pids t.parent t.trace := by
  cases hstep with
  | wait events _ _ => exact h
  | handle _ hwaits hrun =>
    obtain ⟨st', effects', leaves', hrun', hinv⟩ := Parent.handle_ok hpos h hwaits
    rw [hrun, Except.ok.injEq, Prod.mk.injEq, Prod.mk.injEq] at hrun'
    obtain ⟨rfl, rfl, rfl⟩ := hrun'
    exact hinv

/-- The state of the parent agrees with what has happened to the children: a slot is
    cleared and its pipe end closed, once, exactly if its child has been reaped, no kill
    and no notification is for a reaped child, and the parent stops exactly if all are. -/
structure Tracks (pids : List Int) (st : ParentState) : Prop where
  slot : ∀ (i : Nat) q, pids[i]? = some q →
    ∃ p : Process, st.parent.subProcess[i]? = some p ∧ (p.pid = -1 ↔ Effect.reap q ∈ st.trace)
  closed : ∀ (i : Nat) q, pids[i]? = some q →
    st.trace.count (.close i) = if Effect.reap q ∈ st.trace then 1 else 0
  closed_slot : ∀ i, .close i ∈ st.trace → i < pids.length
  kill : ∀ before q after, st.trace = before ++ .kill q :: after →
    q ≠ -1 ∧ q ∈ pids ∧ Effect.reap q ∉ before
  send : ∀ before i after, st.trace = before ++ .send i :: after →
    ∃ q, pids[i]? = some q ∧ Effect.reap q ∉ before
  stop : st.parent.stop = true ↔ ∀ q ∈ pids, Effect.reap q ∈ st.trace

theorem Inv.tracks (hpos : ∀ q ∈ pids, 0 < q) {st : ParentState} (h : Inv pids st.parent st.trace) :
    Tracks pids st where
  slot i q hq := by
    refine ⟨_, h.joined.sub ▸ Parent.slotsAfter_getElem hq, ?_⟩
    have hqpos := hpos q (List.mem_of_getElem? hq)
    by_cases hr : Effect.reap q ∈ st.trace
    · simp [hr]
    · simp only [hr, if_false, iff_false]
      omega
  closed i q hq := by
    simp only [h.joined.closed, reapedAt, hq, Option.any_some, decide_eq_true_eq]
  closed_slot i hi := by
    have hcount := h.joined.closed i
    by_contra hlt
    rw [reapedAt, List.getElem?_eq_none (Nat.le_of_not_lt hlt)] at hcount
    exact List.count_eq_zero.mp hcount hi
  kill before q after heq := by
    obtain ⟨hq, hr⟩ := h.safe before _ after heq
    have hqpos := hpos q hq
    exact ⟨by omega, hq, hr⟩
  send before i after heq := h.safe before _ after heq
  stop := h.stop

/-- In every run of the parent its state agrees with what has happened to the children,
    and the next event is handled. -/
theorem run_tracks (hne : pids ≠ []) (hpos : ∀ q ∈ pids, 0 < q) {evs : List (Option Event)}
    {st : ParentState} (hrun : Run (ParentStep pids) (.init pids) evs st) :
    Tracks pids st ∧ ∀ ev, Waits pids st.trace ev → ∃ r, st.parent.handle ev = .ok r := by
  have hinv : Inv pids st.parent st.trace :=
    Run.invariant (I := fun st => Inv pids st.parent st.trace) (fun _ _ _ => ParentStep.inv hpos) hrun
      (init_inv hne)
  refine ⟨hinv.tracks hpos, fun ev hwaits => ?_⟩
  obtain ⟨st', effects, leaves, hrun, -⟩ := Parent.handle_ok hpos hinv hwaits
  exact ⟨_, hrun⟩

/-- One of two children is reaped, and then a connection arrives. -/
theorem run_tracks_two : ∃ st : ParentState, st.trace = [.reap 41, .close 0, .send 1] ∧
    (Tracks [41, 42] st ∧ ∀ ev, Waits [41, 42] st.trace ev → ∃ r, st.parent.handle ev = .ok r) := by
  refine ⟨⟨⟨[⟨-1⟩, ⟨42⟩], 0, false⟩, [], [.reap 41, .close 0, .send 1]⟩, rfl, ?_⟩
  apply run_tracks (by simp) (by simp)
  apply Run.cons (.wait [.signals [.chld [41]], .listen] rfl rfl)
  apply Run.cons (.handle rfl (by simp [Waits, Event.waited, Signal.waited, ParentState.init]) rfl)
  exact Run.cons (.handle rfl (by simp [Waits, Event.waited]) rfl) (.nil _)

end ProcessPool
