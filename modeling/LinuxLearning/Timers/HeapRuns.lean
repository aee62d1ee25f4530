-- SUMMARY: The timer heap in use: what a tick does, statement by statement as well, and what holds after every run of operations and ticks.
import LinuxLearning.Timers.HeapIndices

/-!
# Runs of the timer heap

A tick of `LinuxLearning.Timers.HeapTick` is a run of the statements of
`LinuxLearning.Timers.HeapIndices`, as long as there are fewer than 2³⁰ timers. Between the
operations of a client it fires what is due, and the array stays a heap of the timers that were
put in and not popped.
-/

namespace Timers

open Memory CString HoleHeap Transition

namespace TimeHeap

-- ---------------------------------------------------------------------------
-- A tick as a run
-- ---------------------------------------------------------------------------

variable {alloc : Nat → Bool} {s : Store HeapTimer} {h : TimeHeap} {timer : Option Ptr} {n : Nat} {u : Use}
  {callback : HeapCallback} {cur : Int} {ts : List Underway}

theorem Step.added (hfree : u.Free) {g : TimeHeap} (hrun : u.heap.addTimerInt alloc u.store timer = .ok (some g)) :
    Step (.ok (some u)) (.addTimer alloc timer) (.ok (some { u with heap := g })) := by
  have h := Step.addTimer alloc timer hfree
  rwa [hrun] at h

/-- What a callback adds is added by the client. -/
theorem addAll_run {as : List Added} (hfree : ∀ s h, Use.Free ⟨s, h, ts⟩) (hle : h.curSize ≤ h.capacity)
    (hcap : 0 < h.capacity) :
    Ensures (addAll alloc as s h) fun o => ∀ s' h', o = some (s', h') →
      h'.curSize ≤ h'.capacity ∧ 0 < h'.capacity ∧ h'.curSize ≤ h.curSize + as.length ∧
        (h.curSize + as.length < 2 ^ 30 → ∃ cs, Run Step (.ok (some ⟨s, h, ts⟩)) cs (.ok (some ⟨s', h', ts⟩))) := by
  induction as generalizing s h with
  | nil =>
    refine .pure ?_
    rintro _ _ ⟨⟩
    exact ⟨hle, hcap, by simp, fun _ => ⟨[], .nil _⟩⟩
  | cons a as ih =>
    rw [List.length_cons]
    refine .bind .result fun o hadd => ?_
    cases o with
    | none => exact .pure nofun
    | some g =>
      obtain ⟨hle', hcap', hsize'⟩ := (addTimer_within alloc hle hcap).ensures _ hadd g rfl
      refine (ih hle' hcap').mono fun o ho s' h' he => ?_
      obtain ⟨hle'', hcap'', hsize'', hrun⟩ := ho s' h' he
      refine ⟨hle'', hcap'', by omega, fun hfew => ?_⟩
      obtain ⟨cs, hcs⟩ := hrun (by omega)
      have hadd' := (addTimerInt_eq alloc hle (by omega)).trans hadd
      exact ⟨_, .cons (.timers _ (hfree s h)) (.cons (.added (hfree _ h) hadd') hcs)⟩

/-- A tick comes from `w` to `w'`: the heap has grown by no more than the timers added and, if
    they are few enough, there is a run. -/
structure Passes (w w' : Ticking) (ts ts' : List Underway) : Prop where
  le : w'.heap.curSize ≤ w'.heap.capacity
  pos : 0 < w'.heap.capacity
  grows : (added w.log).length ≤ (added w'.log).length
  size : w'.heap.curSize + (added w.log).length ≤ w.heap.curSize + (added w'.log).length
  run : w.heap.curSize + (added w'.log).length < 2 ^ 30 + (added w.log).length →
    ∃ cs, Run Step (.ok (some ⟨w.store, w.heap, ts⟩)) cs (.ok (some ⟨w'.store, w'.heap, ts'⟩))

variable {w w' w'' : Ticking} {ts' ts'' : List Underway}

theorem Passes.trans (h : Passes w w' ts ts') (h' : Passes w' w'' ts' ts'') : Passes w w'' ts ts'' where
  le := h'.le
  pos := h'.pos
  grows := h.grows.trans h'.grows
  size := by
    have := h.size
    have := h'.size
    omega
  run hfew := by
    have := h.size
    have := h'.grows
    obtain ⟨cs, hcs⟩ := h.run (by omega)
    obtain ⟨cs', hcs'⟩ := h'.run (by omega)
    exact ⟨_, Run.append_iff.mpr ⟨_, hcs, hcs'⟩⟩

/-- A statement of the tick that does not touch the heap. -/
theorem Passes.next (hle : w.heap.curSize ≤ w.heap.capacity) (hpos : 0 < w.heap.capacity) {t : Underway}
    (hnext : Use.next ⟨w.store, w.heap, t :: ts⟩ t ts = .ok ⟨w.store, w.heap, ts'⟩) : Passes w w (t :: ts) ts' where
  le := hle
  pos := hpos
  grows := le_refl _
  size := le_refl _
  run _ := by
    have h := Step.next (u := ⟨w.store, w.heap, t :: ts⟩) rfl
    rw [hnext] at h
    exact ⟨_, .cons h (.nil _)⟩

theorem fireTop_passes (cur : Int) (ts : List Underway) (hle : w.heap.curSize ≤ w.heap.capacity) (hpos : 0 < w.heap.capacity) :
    Ensures (fireTop alloc callback w) fun o => ∀ w', o = some w' → Passes w w' (⟨cur, .fire⟩ :: ts) (⟨cur, .pop⟩ :: ts) := by
  obtain ⟨s, h, log⟩ := w
  simp only at hle hpos
  refine .bind .result fun first hfirst => .bind .result fun t ht => ?_
  have hfire : Use.next ⟨s, h, ⟨cur, .fire⟩ :: ts⟩ ⟨cur, .fire⟩ ts =
      .ok ⟨s, h, ⟨cur, if t.cbFunc = none then .pop else .callback⟩ :: ts⟩ := by
    simp only [Use.next, hfirst, ok_bind, ht]
    rfl
  cases first with
  | none => cases ht
  | some p =>
    cases hcb : t.cbFunc with
    | none =>
      rw [hcb] at hfire
      refine .pure ?_
      rintro _ ⟨⟩
      exact .next (w := ⟨s, h, log⟩) hle hpos hfire
    | some f =>
      simp only [hcb] at hfire
      dsimp only
      generalize callback (log ++ [.call p f t.userData]) s = as
      have hfree : ∀ s h, Use.Free ⟨s, h, ⟨cur, .callback⟩ :: ts⟩ := by
        rintro _ _ _ _ ⟨⟩
        rfl
      refine .bind (addAll_run hfree hle hpos) fun o ho => ?_
      cases o with
      | none => exact .pure nofun
      | some r =>
        obtain ⟨s', h'⟩ := r
        obtain ⟨hle', hpos', hsize', hrun⟩ := ho s' h' rfl
        refine .pure ?_
        rintro _ ⟨⟩
        have hadded : (added (log ++ [.call p f t.userData] ++ as.map .add)).length = (added log).length + as.length := by
          rw [added_append, added_map_add, added_append]
          simp [added, TickEvent.added]
        have hcall : Passes ⟨s, h, log⟩ ⟨s', h', log ++ [.call p f t.userData] ++ as.map .add⟩
            (⟨cur, .callback⟩ :: ts) (⟨cur, .callback⟩ :: ts) := by
          refine ⟨hle', hpos', ?_, ?_, fun hfew => hrun ?_⟩
          all_goals
            simp only [hadded] at *
            omega
        exact .trans (.next (w := ⟨s, h, log⟩) hle hpos hfire) (hcall.trans (.next hle' hpos' rfl))

theorem popTop_passes (cur : Int) (ts : List Underway) (hle : w.heap.curSize ≤ w.heap.capacity) (hpos : 0 < w.heap.capacity) :
    Ensures (popTop w) fun w' => Passes w w' (⟨cur, .pop⟩ :: ts) (⟨cur, .test (w'.heap.array 0)⟩ :: ts) := by
  obtain ⟨s, h, log⟩ := w
  simp only at hle hpos
  refine .bind_any fun popped => .bind .result fun ⟨s', h'⟩ hpop => .pure ?_
  obtain ⟨hcap', hsize'⟩ := (popTimer_within hle).ensures _ hpop
  simp only at hcap' hsize'
  have hadded : added (log ++ popped.toList.map .free) = added log := by
    rw [added_append]
    cases popped <;> simp [added, TickEvent.added]
  refine ⟨show h'.curSize ≤ h'.capacity by omega, show 0 < h'.capacity by omega, ?_, ?_, fun hfew => ?_⟩
  · simp only [hadded, le_refl]
  · simp only [hadded]
    omega
  · simp only [hadded] at hfew
    have hstep := Step.next (u := ⟨s, h, ⟨cur, .pop⟩ :: ts⟩) rfl
    simp only [Use.next, popTimerInt_eq hle (show h.curSize < 2 ^ 30 by omega), hpop, ok_bind,
      get_ok (show 0 < h'.capacity by omega)] at hstep
    exact ⟨_, .cons hstep (.nil _)⟩

theorem tickLoop_passes {tmp : Option Ptr} (hle : w.heap.curSize ≤ w.heap.capacity) (hpos : 0 < w.heap.capacity) :
    Ensures (tickLoop alloc callback cur n w tmp) fun o => ∀ w', o = some w' → Passes w w' (⟨cur, .test tmp⟩ :: ts) ts := by
  induction n generalizing w tmp with
  | zero => exact .throw
  | succ n ih =>
    have hstop : ∀ w', some w = some w' →
        Use.next ⟨w.store, w.heap, ⟨cur, .test tmp⟩ :: ts⟩ ⟨cur, .test tmp⟩ ts = .ok ⟨w.store, w.heap, ts⟩ →
          Passes w w' (⟨cur, .test tmp⟩ :: ts) ts := by
      rintro _ ⟨⟩ hnext
      exact .next hle hpos hnext
    unfold tickLoop
    by_cases hempty : w.heap.empty = true
    · rw [if_pos hempty]
      exact .pure fun w' he => hstop w' he (by simp [Use.next, hempty])
    rw [if_neg hempty]
    by_cases htmp : tmp = none
    · rw [if_pos htmp]
      exact .pure fun w' he => hstop w' he (by simp [Use.next, htmp])
    rw [if_neg htmp]
    refine .bind .result fun t ht => ?_
    by_cases hlate : cur < t.expire
    · rw [if_pos hlate]
      exact .pure fun w' he => hstop w' he (by simp [Use.next, htmp, ht, hlate])
    rw [if_neg hlate]
    have hdue : Passes w w (⟨cur, .test tmp⟩ :: ts) (⟨cur, .fire⟩ :: ts) :=
      .next hle hpos (by simp [Use.next, hempty, htmp, ht, hlate])
    refine .bind (fireTop_passes cur ts hle hpos) fun o ho => ?_
    cases o with
    | none => exact .pure (by rintro _ ⟨⟩)
    | some w₁ =>
      have hfire := ho w₁ rfl
      refine .bind (popTop_passes cur ts hfire.le hfire.pos) fun w₂ hpop => ?_
      rw [get_ok hpop.pos, ok_bind]
      exact (ih hpop.le hpop.pos).mono fun o' ho' w' he => hdue.trans (hfire.trans (hpop.trans (ho' w' he)))

/-- A tick of the heap that comes to an end is a run. -/
theorem tick_run (hle : h.curSize ≤ h.capacity) (hrun : tick alloc callback cur n s h = .ok (some w))
    (hfew : h.curSize + (added w.log).length < 2 ^ 30) :
    ∃ cs, Run Step (.ok (some (.start s h))) cs (.ok (some (.start w.store w.heap))) := by
  by_cases hpos : 0 < h.capacity
  · rw [tick_eq hpos] at hrun
    have hloop : Passes ⟨s, h, []⟩ w [⟨cur, .test (h.array 0)⟩] [] := tickLoop_passes hle hpos _ hrun w rfl
    obtain ⟨cs, hcs⟩ := hloop.run (by simpa [added] using hfew)
    have htick := Step.tick (u := .start s h) cur (by rintro _ _ ⟨⟩)
    rw [Use.start, get_ok hpos, ok_bind] at htick
    exact ⟨_, .cons htick hcs⟩
  · rw [tick, TimeHeap.get, if_neg hpos] at hrun
    cases hrun

-- ---------------------------------------------------------------------------
-- What a tick does
-- ---------------------------------------------------------------------------

/-- A tick runs the callbacks of exactly the timers that are due and not cancelled, in the order
    of their times, frees each of them right after its callback, and leaves a heap in order of
    the other timers and the ones added. Apart from the ones added, the timers freed are gone and
    the others as they were. It comes to an end, by an exception only where `new` throws, and with
    fewer than 2³⁰ timers it is a run of statements on `int` positions. -/
theorem tick_fires_due (alloc : Nat → Bool) {callback : HeapCallback} {cur : Int} {s : Store HeapTimer}
    {h : TimeHeap} {ts : Multiset (Ptr × HeapTimer)} (hh : Holding s h ts) (hfresh : Fresh callback)
    (hlater : Later callback cur) :
    (Yields (fun n => tick alloc callback cur n s h) none ∧ ∃ k, alloc k = false) ∨
      ∃ s' h' log due, Yields (fun n => tick alloc callback cur n s h) (some ⟨s', h', log⟩) ∧
        Multiset.ofList due = ts.filter (fun x => x.2.expire ≤ cur) ∧
        due.Pairwise (fun x y => x.2.expire ≤ y.2.expire) ∧ fired log = due.flatMap fires ∧
        Holding s' h' (ts.filter (fun x => cur < x.2.expire) + Multiset.ofList (added log)) ∧
        (∀ p, (∀ y ∈ added log, y.1 ≠ p) → s' p = if p ∈ due.map Prod.fst then none else s p) ∧
        (h.curSize + (added log).length < 2 ^ 30 →
          ∃ cs, Run Step (.ok (some (.start s h))) cs (.ok (some (.start s' h')))) := by
  refine (hh.ticks hfresh hlater alloc).imp_right ?_
  rintro ⟨s', h', log, due, ⟨k, hrun⟩, hset, hpair, hlog, hh', hkeep⟩
  exact ⟨s', h', log, due, ⟨k, hrun⟩, hset, hpair, hlog, hh', hkeep, tick_run hh.inv.le (hrun k (le_refl k))⟩

/-- A callback that adds a timer to a full heap, which grows before the first timer is popped. -/
theorem tick_fires_due_rearmed :
    let s : Store HeapTimer := fun p =>
      if p = 0 then some ⟨2, some 1, none⟩ else if p = 1 then some ⟨9, none, none⟩ else none
    let h : TimeHeap := ⟨fun i => if i < 2 then some i else none, 2, 2⟩
    let rearm : HeapCallback := fun _ s => if s 7 = none then [⟨7, 4, 5, some 1, none⟩] else []
    ∃ s' h' log due, Yields (fun n => tick (fun _ => true) rearm 4 n s h) (some ⟨s', h', log⟩) ∧
      Multiset.ofList due = {(0, ⟨2, some 1, none⟩)} ∧ fired log = due.flatMap fires ∧
      Holding s' h' ({(1, ⟨9, none, none⟩)} + Multiset.ofList (added log)) ∧
      (2 + (added log).length < 2 ^ 30 →
        ∃ cs, Run Step (.ok (some (.start s h))) cs (.ok (some (.start s' h')))) := by
  intro s h rearm
  have hinv : Inv ⟨s, h, Multiset.ofList [0, 1]⟩ := {
    pos := by decide
    le := by decide
    live := by decide
    nodup := by decide
    contents := by decide
    order := fun i hpos hi _ => by
      obtain rfl : i = 1 := by
        change i < 2 at hi
        omega
      decide }
  have hh : Holding s h (Multiset.ofList [(0, ⟨2, some 1, none⟩), (1, ⟨9, none, none⟩)]) :=
    ⟨hinv, by decide⟩
  have hfresh : Fresh rearm := by
    intro log s
    by_cases hs : s 7 = none
    · simp [rearm, hs]
    · simp [rearm, hs]
  have hlater : Later rearm 4 := by
    intro log s a ha
    simp only [rearm] at ha
    split at ha
    · obtain rfl := List.mem_singleton.mp ha
      decide
    · cases ha
  rcases tick_fires_due (fun _ => true) hh hfresh hlater with
    ⟨-, k, hk⟩ | ⟨s', h', log, due, hrun, hset, -, hlog, hh', -, hrun'⟩
  · cases hk
  · exact ⟨s', h', log, due, hrun, hset.trans (by decide), hlog, hh', hrun'⟩

-- ---------------------------------------------------------------------------
-- Runs
-- ---------------------------------------------------------------------------

/-- A heap after a tick at `cur`: it holds the timers that are not due, and those that were added. -/
def State.ticked (st : State) (cur : Int) (w : Ticking) : State where
  store := w.store
  heap := w.heap
  held := st.held.filter (fun p => cur < expireOf st.store (some p)) + Multiset.ofList ((added w.log).map Prod.fst)

/-- The states a heap can be in, from either constructor on. -/
inductive Reachable (alloc : Nat → Bool) : State → Prop where
  | ofCapacity {s : Store HeapTimer} {cap : Nat} {h : TimeHeap} : 1 ≤ cap → ofCapacity alloc cap = some h →
      Reachable alloc ⟨s, h, 0⟩
  | ofArray {s : Store HeapTimer} {ps : List Ptr} {cap : Nat} {h : TimeHeap} : 1 ≤ cap →
      (∀ p ∈ ps, (s p).isSome) → ps.Nodup →
      ofArray alloc s (ps.map some) ps.length cap = .ok (some h) → Reachable alloc ⟨s, h, ps⟩
  | step {st st' : State} {op : Op} : Reachable alloc st → Legal st op → exec alloc st op = .ok st' →
      Reachable alloc st'
  | tick {st : State} {callback : HeapCallback} {cur : Int} {w : Ticking} : Reachable alloc st → Fresh callback →
      Later callback cur → Yields (fun n => tick alloc callback cur n st.store st.heap) (some w) →
      Reachable alloc (st.ticked cur w)

variable {st : State}

/-- The timers held, with what they point to. -/
theorem Inv.holding (hi : Inv st) : ∃ ts, Holding st.store st.heap ts ∧ ts.map Prod.fst = st.held := by
  let ts := st.held.map fun p => (p, (st.store p).getD ⟨0, none, none⟩)
  have hfst : ts.map Prod.fst = st.held := by simp [ts]
  refine ⟨ts, ⟨by rw [hfst]; exact hi, fun x hx => ?_⟩, hfst⟩
  obtain ⟨p, hp, rfl⟩ := Multiset.mem_map.mp hx
  obtain ⟨t, ht⟩ := Option.isSome_iff_exists.mp (hi.live p hp)
  simp [ht]

theorem Inv.ticked (hi : Inv st) {w : Ticking} (hfresh : Fresh callback) (hlater : Later callback cur)
    (hrun : Yields (fun n => tick alloc callback cur n st.store st.heap) (some w)) : Inv (st.ticked cur w) := by
  obtain ⟨ts, hh, hheld⟩ := hi.holding
  rcases hh.ticks hfresh hlater alloc with ⟨hthrow, -⟩ | ⟨s', h', log, due, hrun', -, -, -, hh', -⟩
  · cases hrun.unique hthrow
  · cases hrun.unique hrun'
    have hleft : (ts.filter fun x => cur < x.2.expire).map Prod.fst =
        st.held.filter fun p => cur < expireOf st.store (some p) := by
      rw [← hheld, Multiset.filter_map]
      refine congrArg (Multiset.map Prod.fst) (Multiset.filter_congr fun x hx => ?_)
      rw [Function.comp_apply, expireOf_some (hh.timer x hx)]
    have hinv := hh'.inv
    rwa [Multiset.map_add, hleft, Multiset.map_coe] at hinv

theorem Reachable.inv (hr : Reachable alloc st) : Inv st := by
  induction hr with
  | ofCapacity hcap hrun => exact .ofCapacity hcap hrun
  | ofArray hcap hlive hnodup hrun => exact .ofArray hcap hlive hnodup hrun
  | step _ hop hrun ih =>
    obtain ⟨st', hrun', hi⟩ := ih.exec hop alloc
    rw [hrun] at hrun'
    cases hrun'
    exact hi
  | tick _ hfresh hlater hrun ih => exact ih.ticked hfresh hlater hrun

/-- In every state of every run the array is a heap of exactly the timers put in and not popped,
    `top` is one that expires first, and the next call is free of faults. `add_timer` throws only
    where `new` does, for the array it doubles. -/
theorem reachable_heap (alloc : Nat → Bool) (st : State) (hr : Reachable alloc st) :
    Ordered st ∧ HoldsExactly st ∧ TopIsFirst st ∧ (∀ op, Legal st op → ∃ st', exec alloc st op = .ok st') ∧
      ∀ timer, st.heap.addTimer alloc st.store timer = .ok none → alloc (2 * st.heap.capacity) = false :=
  ⟨hr.inv.ordered, ⟨hr.inv.contents, hr.inv.nodup⟩, hr.inv.topIsFirst,
    fun _ hop => (hr.inv.exec hop alloc).imp fun _ h => h.1,
    fun _ hthrow => hr.inv.ready.addTimer_throws alloc hthrow⟩

/-- A heap of capacity 1 that is doubled twice. One timer is popped, one is cancelled, and a tick
    fires the third, whose callback adds another one. -/
theorem reachable_heap_grown :
    ∃ st, Reachable (fun _ => true) st ∧ st.heap.capacity = 4 ∧ st.heap.top = .ok (some 1) ∧
      st.held = Multiset.ofList [1, 4] ∧ Ordered st ∧ HoldsExactly st ∧ TopIsFirst st := by
  let rearm : HeapCallback := fun _ s => if s 4 = none then [⟨4, 8, 5, some 1, none⟩] else []
  have hfresh : Fresh rearm := by
    intro log s
    by_cases hs : s 4 = none
    · simp [rearm, hs]
    · simp [rearm, hs]
  have hlater : Later rearm 8 := by
    intro log s a ha
    simp only [rearm] at ha
    split at ha
    · obtain rfl := List.mem_singleton.mp ha
      decide
    · cases ha
  have hadd : ∀ {st : State} {p : Ptr}, (st.store p).isSome → p ∉ st.held → Legal st (.addTimer (some p)) := by
    rintro st p hlive hnew _ ⟨⟩
    exact ⟨hlive, hnew⟩
  have h₀ : Reachable (fun _ => true) ⟨fun _ => none, ⟨fun _ => none, 1, 0⟩, 0⟩ := .ofCapacity (le_refl 1) rfl
  have h₁ := h₀.step (show Legal _ (.new 1 ⟨9, some 4, none⟩) from rfl) rfl
  have h₂ := h₁.step (hadd (p := 1) rfl (by decide)) rfl
  have h₃ := h₂.step (show Legal _ (.new 2 ⟨5, none, none⟩) from rfl) rfl
  have h₄ := h₃.step (hadd (p := 2) rfl (by decide)) rfl
  have h₅ := h₄.step (show Legal _ (.new 3 ⟨7, some 6, none⟩) from rfl) rfl
  have h₆ := h₅.step (hadd (p := 3) rfl (by decide)) rfl
  have h₇ := h₆.step (show Legal _ (.delTimer (some 1)) by rintro _ ⟨⟩; rfl) rfl
  have h₈ := h₇.step (show Legal _ .popTimer from trivial) rfl
  have h₉ := h₈.tick hfresh hlater (Yields.of_add 2 fun _ => rfl)
  obtain ⟨hord, hholds, htop, -⟩ := reachable_heap _ _ h₉
  exact ⟨_, h₉, rfl, rfl, by decide, hord, hholds, htop⟩

end TimeHeap

end Timers
