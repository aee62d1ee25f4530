-- SUMMARY: The timer heap as an alarm service, although it keeps the timers that are cancelled, and its agreement with the timer list.
import LinuxLearning.Timers.HeapTick
import LinuxLearning.Timers.ListService

/-!
# The timer heap as a service

A timer that a user stops stays in the heap until it is due, without its callback. To put a
timer off, a user stops it and adds another one. What is called is the same as for the list.
-/

namespace Timers

open Memory Transition Alarms

namespace TimeHeap

def fields : Fields HeapTimer where
  expire := HeapTimer.expire
  cbFunc := HeapTimer.cbFunc
  userData := HeapTimer.userData

/-- A callback that adds no timer. -/
def idle : HeapCallback := fun _ _ => []

def TickEvent.called : TickEvent → Option (User × Nat)
  | .call _ f u => some (u, f)
  | _ => none

/-- The heap, its timers, and the timer of each user that has one. -/
structure Client where
  store : Store HeapTimer
  heap : TimeHeap
  timer : User → Option Ptr

namespace Client

def init (h : TimeHeap) : Client :=
  ⟨fun _ => none, h, fun _ => none⟩

def alarms (c : Client) : Alarms.State User Nat :=
  fields.alarms c.timer c.store

variable (alloc : Nat → Bool)

/-- `new` answers with `p`, and the timer made there becomes the one of the user. The result is
    `none` where an exception is thrown. -/
def add (p : Ptr) (t : HeapTimer) (c : Client) : Except Fault (Option (Client × List (User × Nat))) := do
  let s := Function.update c.store p (some t)
  match ← c.heap.addTimer alloc s (some p) with
  | none => return none
  | some h => return some (⟨s, h, Function.update c.timer t.userData (some p)⟩, [])

/-- What the client does for a request, and the calls that are made. -/
def exec (n : Nat) (p : Ptr) (c : Client) :
    Request User Nat → Except Fault (Option (Client × List (User × Nat)))
  | .start u e f => c.add alloc p ⟨e, some f, u⟩
  | .restart u e => do
    let t ← deref c.store (c.timer u)
    let s ← delTimer c.store (c.timer u)
    { c with store := s }.add alloc p ⟨e, t.cbFunc, u⟩
  | .stop u => do
    let s ← delTimer c.store (c.timer u)
    return some ({ c with store := s, timer := Function.update c.timer u none }, [])
  | .tick cur => do
    match ← tick alloc idle cur n c.store c.heap with
    | none => return none
    | some w =>
      let calls := w.log.filterMap TickEvent.called
      return some (⟨w.store, w.heap, forget calls c.timer⟩, calls)

/-- A request that the service allows, with an unused address from `new`. -/
def Step (c : Client) (e : Event User Nat) (c' : Client) : Prop :=
  e.1.Allowed c.alarms ∧ ∃ p, c.store p = none ∧ Yields (fun n => exec alloc n p c e.1) (some (c', e.2))

end Client

-- ---------------------------------------------------------------------------
-- Ticks with callbacks that add nothing
-- ---------------------------------------------------------------------------

variable {alloc : Nat → Bool} {s : Store HeapTimer} {h : TimeHeap} {ts : Multiset (Ptr × HeapTimer)}
  {p : Ptr} {t : HeapTimer} {cur : Int}

theorem fireTop_idle (alloc : Nat → Bool) (w : Ticking) : Ensures (fireTop alloc idle w) fun r =>
    ∃ w', r = some w' ∧ added w'.log = added w.log := by
  unfold fireTop
  refine .bind_any fun first => .bind_any fun t => ?_
  split
  · refine .pure ⟨_, rfl, ?_⟩
    simp [added, TickEvent.added, idle]
  · exact .pure ⟨w, rfl, rfl⟩

theorem popTop_added (w : Ticking) : Ensures (popTop w) fun w' => added w'.log = added w.log := by
  unfold popTop
  refine .bind_any fun popped => .bind_any fun r => .pure ?_
  cases popped <;> simp [added, TickEvent.added]

theorem tickLoop_idle (alloc : Nat → Bool) {n : Nat} {w : Ticking} {tmp : Option Ptr} :
    Ensures (tickLoop alloc idle cur n w tmp) fun r => ∃ w', r = some w' ∧ added w'.log = added w.log := by
  induction n generalizing w tmp with
  | zero => exact .throw
  | succ n ih =>
    unfold tickLoop
    refine .ite (.pure ⟨w, rfl, rfl⟩) (.ite (.pure ⟨w, rfl, rfl⟩) (.bind_any fun t => .ite (.pure ⟨w, rfl, rfl⟩) ?_))
    refine (fireTop_idle alloc w).bind ?_
    rintro r ⟨w₁, rfl, hw₁⟩
    refine (popTop_added w₁).bind fun w₂ hw₂ => .bind_any fun tmp => ih.mono ?_
    rintro r ⟨w', rfl, hw'⟩
    exact ⟨w', rfl, hw'.trans (hw₂.trans hw₁)⟩

theorem called_fired (log : List TickEvent) :
    (fired log).filterMap TickEvent.called = log.filterMap TickEvent.called := by
  rw [fired, List.filterMap_filter]
  refine List.filterMap_congr fun e _ => ?_
  cases e <;> rfl

theorem called_fires (due : List (Ptr × HeapTimer)) :
    (due.flatMap fires).filterMap TickEvent.called = fields.calls due := by
  rw [List.filterMap_flatMap, Fields.calls, List.filterMap_eq_flatMap_toList]
  refine List.flatMap_congr fun x _ => ?_
  obtain ⟨p, e, f, u⟩ := x
  cases f <;> rfl

/-- Without callbacks that add timers, a tick calls those that are due and not cancelled. -/
theorem Holding.tick_idle (hh : Holding s h ts) (alloc : Nat → Bool) (cur : Int) :
    ∃ s' h' log due, Yields (fun n => tick alloc idle cur n s h) (some ⟨s', h', log⟩) ∧
      Multiset.ofList due = ts.filter (fun x => x.2.expire ≤ cur) ∧
      due.Pairwise (fun x y => x.2.expire ≤ y.2.expire) ∧
      log.filterMap TickEvent.called = fields.calls due ∧
      Holding s' h' (ts.filter fun x => cur < x.2.expire) := by
  have hfresh : Fresh idle := by simp [Fresh, idle]
  have hlater : Later idle cur := by simp [Later, idle]
  rcases hh.tickLoop hfresh hlater alloc [] with ⟨hthrow, -⟩ | ⟨s', h', log, due, hrun, hdue, hord, hlog, hh', -⟩
  · obtain ⟨w, hw, -⟩ := tickLoop_idle alloc _ (hthrow _ (Nat.lt_succ_self _))
    cases hw
  · obtain ⟨w, hw, hadded⟩ := tickLoop_idle alloc _ (hrun _ (Nat.lt_succ_self _))
    cases hw
    have hnone : added log = [] := hadded
    rw [hnone, Multiset.coe_nil, Multiset.add_zero] at hh'
    refine ⟨s', h', log, due, ⟨_, fun n hn => (tick_eq hh.inv.pos).trans (hrun n hn)⟩, hdue, hord, ?_, hh'⟩
    rw [← called_fired, hlog, called_fires]

/-- A cancelled timer keeps its place without its callback. -/
theorem Holding.cancel (hh : Holding s h ((p, t) ::ₘ ts)) :
    delTimer s (some p) = .ok (Function.update s p (some { t with cbFunc := none })) ∧
      Holding (Function.update s p (some { t with cbFunc := none })) h ((p, { t with cbFunc := none }) ::ₘ ts) := by
  have hp : s p = some t := hh.timer (p, t) (Multiset.mem_cons_self ..)
  have hrun : delTimer s (some p) = .ok (Function.update s p (some { t with cbFunc := none })) := by
    simp [delTimer, hp]
  obtain ⟨s', hrun', hinv⟩ := hh.inv.delTimer (p := p) (by simp [hp])
  obtain rfl := Except.ok.inj (hrun.symm.trans hrun')
  refine ⟨hrun, ?_, fun x hx => ?_⟩
  · simpa only [Multiset.map_cons] using hinv
  · rcases Multiset.mem_cons.mp hx with rfl | hx
    · exact Function.update_self ..
    · have hnd := hh.inv.nodup
      simp only [Multiset.map_cons, Multiset.nodup_cons] at hnd
      have hne : x.1 ≠ p := fun he => hnd.1 (he ▸ Multiset.mem_map_of_mem _ hx)
      rw [Function.update_of_ne hne]
      exact hh.timer x (Multiset.mem_cons_of_mem hx)

theorem Holding.new (hh : Holding s h ts) (alloc : Nat → Bool) (hp : s p = none) (t : HeapTimer) :
    (h.addTimer alloc (Function.update s p (some t)) (some p) = .ok none ∧ ∃ k, alloc k = false) ∨
      ∃ h', h.addTimer alloc (Function.update s p (some t)) (some p) = .ok (some h') ∧
        Holding (Function.update s p (some t)) h' ((p, t) ::ₘ ts) := by
  have ht : (⟨p, t.expire, 0, t.cbFunc, t.userData⟩ : Added).timer = t := by simp [Added.timer]
  have hadd := hh.add alloc (a := ⟨p, t.expire, 0, t.cbFunc, t.userData⟩) hp
  rw [Added.entry, ht] at hadd
  rcases hadd with hthrow | ⟨h', hrun, hh', -⟩
  · exact .inl hthrow
  · exact .inr ⟨h', hrun, hh'⟩

-- ---------------------------------------------------------------------------
-- Requests
-- ---------------------------------------------------------------------------

namespace Client

variable {c c' : Client} {table : User → Option (Ptr × Int × Nat)} {u : User} {e e' : Int} {f : Nat}

/-- The heap is in order, and those of its timers that have a callback are the ones of the users. -/
structure Inv (c : Client) (ts : Multiset (Ptr × HeapTimer)) (table : User → Option (Ptr × Int × Nat)) : Prop where
  holding : Holding c.store c.heap ts
  kept : fields.Kept c.timer c.store ts table

theorem alarm_mk (e : Int) (f : Nat) (u : User) : fields.alarm ⟨e, some f, u⟩ = some (u, e, f) := rfl

/-- The timer of a user is in the heap. -/
theorem Inv.split (hi : Inv c ts table) (hu : c.alarms u = some (e, f)) :
    ∃ q ts', c.timer u = some q ∧ ts = (q, ⟨e, some f, u⟩) ::ₘ ts' := by
  obtain ⟨q, t, ts', hq, hts, ht⟩ := hi.kept.split hu
  obtain ⟨e₁, f₁, u₁⟩ := t
  cases f₁ with
  | none => cases ht
  | some f₁ =>
    cases ht
    exact ⟨q, ts', hq, hts⟩

/-- Without its callback a timer is nobody's. -/
theorem filterMap_cancelled : ((p, { t with cbFunc := none }) ::ₘ ts).filterMap fields.entry =
    ts.filterMap fields.entry :=
  Multiset.filterMap_cons_none _ _ rfl

theorem Inv.start (hi : Inv c ts table) (hu : c.alarms u = none) (hp : c.store p = none) (e : Int) (f : Nat) :
    (c.add alloc p ⟨e, some f, u⟩ = .ok none ∧ ∃ k, alloc k = false) ∨
      ∃ c' ts' table', c.add alloc p ⟨e, some f, u⟩ = .ok (some (c', [])) ∧ Inv c' ts' table' ∧
        Alarms.Step c.alarms (.start u e f, []) c'.alarms := by
  rcases hi.holding.new alloc hp ⟨e, some f, u⟩ with ⟨hrun, halloc⟩ | ⟨h', hrun, hh'⟩
  · refine .inl ⟨?_, halloc⟩
    simp only [add, hrun, ok_bind]
    rfl
  · obtain ⟨hkept, hstep⟩ := hi.kept.start (hi.kept.timer_none hu) (alarm_mk e f u) hh'.timer
    refine .inr ⟨⟨Function.update c.store p (some ⟨e, some f, u⟩), h', Function.update c.timer u (some p)⟩, _, _,
      ?_, ⟨hh', hkept⟩, hstep⟩
    simp only [add, hrun, ok_bind]
    rfl

theorem Inv.restart (hi : Inv c ts table) (hu : c.alarms u = some (e, f)) (hle : e ≤ e') (hp : c.store p = none)
    (n : Nat) :
    (exec alloc n p c (.restart u e') = .ok none ∧ ∃ k, alloc k = false) ∨
      ∃ c' ts' table', exec alloc n p c (.restart u e') = .ok (some (c', [])) ∧ Inv c' ts' table' ∧
        Alarms.Step c.alarms (.restart u e', []) c'.alarms := by
  obtain ⟨q, ts, hq, rfl⟩ := hi.split hu
  have hlive : c.store q = some ⟨e, some f, u⟩ := hi.holding.timer (q, _) (Multiset.mem_cons_self ..)
  obtain ⟨hcancel, hh⟩ := hi.holding.cancel
  have hnew : Function.update c.store q (some ⟨e, none, u⟩) p = none := by
    rw [Function.update_of_ne, hp]
    rintro rfl
    rw [hlive] at hp
    cases hp
  rcases hh.new alloc hnew ⟨e', some f, u⟩ with ⟨hrun, halloc⟩ | ⟨h', hrun, hh'⟩
  · refine .inl ⟨?_, halloc⟩
    simp only [exec, add, hq, deref_of_live hlive, hcancel, ok_bind, hrun]
    rfl
  · obtain ⟨hkept, hstep⟩ := hi.kept.restart (alarm_mk e f u) hle (alarm_mk e' f u) filterMap_cancelled hh'.timer
    refine .inr ⟨⟨Function.update (Function.update c.store q (some ⟨e, none, u⟩)) p (some ⟨e', some f, u⟩), h',
      Function.update c.timer u (some p)⟩, _, _, ?_, ⟨hh', hkept⟩, hstep⟩
    simp only [exec, add, hq, deref_of_live hlive, hcancel, ok_bind, hrun]
    rfl

theorem Inv.stop (hi : Inv c ts table) (hu : c.alarms u = some (e, f)) (alloc : Nat → Bool) (p : Ptr) (n : Nat) :
    ∃ c' ts' table', exec alloc n p c (.stop u) = .ok (some (c', [])) ∧ Inv c' ts' table' ∧
      Alarms.Step c.alarms (.stop u, []) c'.alarms := by
  obtain ⟨q, ts, hq, rfl⟩ := hi.split hu
  obtain ⟨hcancel, hh⟩ := hi.holding.cancel
  obtain ⟨hkept, hstep⟩ := hi.kept.stop (alarm_mk e f u) filterMap_cancelled hh.timer
  refine ⟨⟨Function.update c.store q (some ⟨e, none, u⟩), c.heap, Function.update c.timer u none⟩, _, _, ?_,
    ⟨hh, hkept⟩, hstep⟩
  simp only [exec, hq, hcancel, ok_bind]
  rfl

theorem Inv.tick (hi : Inv c ts table) (cur : Int) (p : Ptr) :
    ∃ c' calls ts' table', Yields (fun n => exec alloc n p c (.tick cur)) (some (c', calls)) ∧
      Inv c' ts' table' ∧ Alarms.Step c.alarms (.tick cur, calls) c'.alarms := by
  obtain ⟨s', h', log, due, ⟨k, hrun⟩, hdue, hord, hcalls, hh'⟩ := hi.holding.tick_idle alloc cur
  obtain ⟨hkept, hstep⟩ := hi.kept.tick hdue hord rfl hh'.timer
  refine ⟨⟨s', h', _⟩, _, _, _, ⟨k, fun n hn => ?_⟩, ⟨hh', hkept⟩, hstep⟩
  simp only [exec, hrun n hn, ok_bind, hcalls]
  rfl

/-- A request that is allowed returns, keeps the invariant, and does what it is for, unless `new`
    throws. -/
theorem Inv.exec (hi : Inv c ts table) {r : Request User Nat} (hallowed : r.Allowed c.alarms)
    (hp : c.store p = none) (alloc : Nat → Bool) :
    (Yields (fun n => Client.exec alloc n p c r) none ∧ ∃ k, alloc k = false) ∨
      ∃ c' calls ts' table', Yields (fun n => Client.exec alloc n p c r) (some (c', calls)) ∧ Inv c' ts' table' ∧
        Alarms.Step c.alarms (r, calls) c'.alarms := by
  cases r with
  | start u e f =>
    rcases hi.start hallowed hp e f with ⟨hrun, halloc⟩ | ⟨c', ts', table', hrun, hinv, hstep⟩
    · exact .inl ⟨⟨0, fun n _ => hrun⟩, halloc⟩
    · exact .inr ⟨c', [], ts', table', ⟨0, fun n _ => hrun⟩, hinv, hstep⟩
  | restart u e =>
    obtain ⟨a, hu, hle⟩ := hallowed
    rcases hi.restart hu hle hp 0 with ⟨hrun, halloc⟩ | ⟨c', ts', table', hrun, hinv, hstep⟩
    · exact .inl ⟨⟨0, fun n _ => hrun⟩, halloc⟩
    · exact .inr ⟨c', [], ts', table', ⟨0, fun n _ => hrun⟩, hinv, hstep⟩
  | stop u =>
    obtain ⟨a, hu⟩ := Option.isSome_iff_exists.mp hallowed
    obtain ⟨c', ts', table', hrun, hinv, hstep⟩ := hi.stop hu alloc p 0
    exact .inr ⟨c', [], ts', table', ⟨0, fun n _ => hrun⟩, hinv, hstep⟩
  | tick cur => exact .inr (hi.tick cur p)

theorem Step.alarms {ev : Event User Nat} (hstep : Step alloc c ev c') (h : ∃ ts table, Inv c ts table) :
    Alarms.Step c.alarms ev c'.alarms ∧ ∃ ts table, Inv c' ts table := by
  obtain ⟨ts, table, hi⟩ := h
  obtain ⟨hallowed, p, hp, hrun⟩ := hstep
  rcases hi.exec hallowed hp alloc with ⟨hthrow, -⟩ | ⟨c₁, calls, ts₁, table₁, hrun₁, hinv, hstep⟩
  · cases hrun.unique hthrow
  · cases hrun.unique hrun₁
    exact ⟨hstep, ts₁, table₁, hinv⟩

theorem init_inv {cap : Nat} (hcap : 1 ≤ cap) (hnew : ofCapacity alloc cap = some h) :
    Inv (init h) 0 fun _ => none :=
  ⟨⟨(TimeHeap.Inv.ofCapacity hcap hnew), by simp⟩, .empty⟩

/-- A run of the users is one of the alarm component. -/
theorem run_alarms {cap : Nat} (hcap : 1 ≤ cap) (hnew : ofCapacity alloc cap = some h)
    {evs : List (Event User Nat)} (hrun : Run (Step alloc) (init h) evs c) :
    Run Alarms.Step (fun _ => none) evs c.alarms ∧ ∃ ts table, Inv c ts table := by
  have hsim := hrun.simulate Client.alarms id (fun _ _ _ h hstep => hstep.alarms h) ⟨_, _, init_inv hcap hnew⟩
  rwa [List.map_id] at hsim

/-- Every run of the users of a heap is one of the alarm component, whatever is still in the heap
    of the timers they have stopped, and the next request that it allows returns, by an exception
    only where `new` throws. -/
theorem heap_serves (alloc : Nat → Bool) {cap : Nat} {h : TimeHeap} {evs : List (Event User Nat)} {c : Client}
    (hcap : 1 ≤ cap) (hnew : ofCapacity alloc cap = some h) (hrun : Run (Step alloc) (init h) evs c) :
    Run Alarms.Step (fun _ => none) evs c.alarms ∧
      ∀ r p, r.Allowed c.alarms → c.store p = none →
        (∃ calls c', Step alloc c (r, calls) c') ∨
          Yields (fun n => exec alloc n p c r) none ∧ ∃ k, alloc k = false := by
  obtain ⟨halarms, ts, table, hinv⟩ := run_alarms hcap hnew hrun
  refine ⟨halarms, fun r p hallowed hp => ?_⟩
  rcases hinv.exec hallowed hp alloc with hthrow | ⟨c', calls, -, -, hstep, -⟩
  · exact .inr hthrow
  · exact .inl ⟨calls, c', hallowed, p, hp, hstep⟩

theorem Step.of_exec (r : Request User Nat) (calls : List (User × Nat)) (p : Ptr) (hallowed : r.Allowed c.alarms)
    (hp : c.store p = none) (k : Nat) (h : ∀ n, Client.exec alloc (n + k) p c r = .ok (some (c', calls))) :
    Step alloc c (r, calls) c' :=
  ⟨hallowed, p, hp, Yields.of_add k h⟩

/-- A heap of capacity 1. -/
def single : TimeHeap :=
  ⟨fun _ => none, 1, 0⟩

/-- The timer that is put off is still in the heap when the other one is called. -/
theorem putOff_run : ∃ c, Run (Step fun _ => true) (init single) SortTimerList.Client.putOff c := by
  apply Exists.intro
  apply Run.cons (Step.of_exec (.start (some 1) 5 8) [] 11 (by rfl) (by rfl) 0 fun _ => rfl)
  apply Run.cons (Step.of_exec (.start (some 2) 6 9) [] 12 (by rfl) (by rfl) 0 fun _ => rfl)
  apply Run.cons (Step.of_exec (.restart (some 1) 7) [] 13 (by exact ⟨(5, 8), rfl, by decide⟩) (by rfl) 0 fun _ => rfl)
  apply Run.cons (Step.of_exec (.tick 6) [(some 2, 9)] 14 trivial (by rfl) 3 fun _ => rfl)
  apply Run.cons (Step.of_exec (.stop (some 1)) [] 14 (by rfl) (by rfl) 0 fun _ => rfl)
  exact Run.nil _

theorem heap_serves_putOff : ∃ c, Run (Step fun _ => true) (init single) SortTimerList.Client.putOff c ∧
    Run Alarms.Step (fun _ => none) SortTimerList.Client.putOff c.alarms ∧
    ∀ r p, r.Allowed c.alarms → c.store p = none →
      (∃ calls c', Step (fun _ => true) c (r, calls) c') ∨
        Yields (fun n => exec (fun _ => true) n p c r) none ∧ ∃ k : Nat, (fun _ : Nat => true) k = false := by
  obtain ⟨c, hrun⟩ := putOff_run
  exact ⟨c, hrun, heap_serves _ (Nat.le_refl 1) rfl hrun⟩

/-- The heap and the list agree: asked for the same, they make the same calls with every tick, and
    the same timers are left. -/
theorem heap_agrees (alloc : Nat → Bool) {cap : Nat} {h : TimeHeap} {evs evs' : List (Event User Nat)}
    {c : Client} {l : SortTimerList.Client} (hcap : 1 ≤ cap) (hnew : ofCapacity alloc cap = some h)
    (hheap : Run (Step alloc) (init h) evs c)
    (hlist : Run SortTimerList.Client.Step SortTimerList.Client.init evs' l)
    (hreq : evs.map Prod.fst = evs'.map Prod.fst) :
    c.alarms = l.alarms ∧ List.Forall₂ (fun e f => List.Perm e.2 f.2) evs evs' := by
  obtain ⟨halarms, -⟩ := run_alarms hcap hnew hheap
  obtain ⟨halarms', -⟩ := SortTimerList.Client.run_alarms hlist
  exact Alarms.Run.agree halarms halarms' hreq

theorem heap_agrees_putOff : ∃ c l, Run (Step fun _ => true) (init single) SortTimerList.Client.putOff c ∧
    Run SortTimerList.Client.Step SortTimerList.Client.init SortTimerList.Client.putOff l ∧ c.alarms = l.alarms ∧
    List.Forall₂ (fun e f => List.Perm e.2 f.2) SortTimerList.Client.putOff SortTimerList.Client.putOff := by
  obtain ⟨c, hheap⟩ := putOff_run
  obtain ⟨l, hlist⟩ := SortTimerList.Client.putOff_run
  exact ⟨c, l, hheap, hlist, heap_agrees _ (Nat.le_refl 1) rfl hheap hlist rfl⟩

end Client

end TimeHeap

end Timers
