-- SUMMARY: The tick of the timer heap, with callbacks that add timers: what it fires, in which order, and what stays.
import LinuxLearning.Timers.HeapOrder

/-!
# Ticking the timer heap

`tick` runs the callback of the first timer and then pops whatever is first. In between, the
callback may have added timers and the array may have grown. A timer that expires later than
the first one never takes its place, so what is popped is the timer whose callback ran.
-/

namespace Timers

open Memory HoleHeap

namespace TimeHeap

/-- A timer that a callback creates, with the address `new` answers and the time its
    constructor reads. -/
structure Added where
  address : Ptr
  now : Int
  delay : Int
  cbFunc : Option Nat
  userData : Option Ptr
deriving Repr, DecidableEq

def Added.timer (a : Added) : HeapTimer where
  expire := a.now + a.delay
  cbFunc := a.cbFunc
  userData := a.userData

/-- What happens in a tick, in order. -/
inductive TickEvent where
  | call (p : Ptr) (cbFunc : Nat) (userData : Option Ptr)
  | add (a : Added)
  | free (p : Ptr)
deriving Repr, DecidableEq

/-- What a callback adds may depend on all that has happened, its own call last, and on the
    store. -/
abbrev HeapCallback := List TickEvent → Store HeapTimer → List Added

variable (alloc : Nat → Bool) (callback : HeapCallback) (cur : Int)

/-- The calls of `add_timer` in a callback. The result is `none` where one of them throws. -/
def addAll : List Added → Store HeapTimer → TimeHeap → Except Fault (Option (Store HeapTimer × TimeHeap))
  | [], s, h => return some (s, h)
  | a :: as, s, h => do
    let s := Function.update s a.address (some a.timer)
    match ← h.addTimer alloc s (some a.address) with
    | none => return none
    | some h => addAll as s h

structure Ticking where
  store : Store HeapTimer
  heap : TimeHeap
  log : List TickEvent

/-- `if(array[0]->cb_func) array[0]->cb_func(array[0]->user_data)`. -/
def fireTop (w : Ticking) : Except Fault (Option Ticking) := do
  let first ← w.heap.get 0
  let t ← deref w.store first
  match first, t.cbFunc with
  | some p, some f =>
    let log := w.log ++ [.call p f t.userData]
    let adds := callback log w.store
    match ← addAll alloc adds w.store w.heap with
    | none => return none
    | some (s, h) => return some ⟨s, h, log ++ adds.map .add⟩
  | _, _ => return some w

/-- `pop_timer` in `tick`, with the timer it frees. -/
def popTop (w : Ticking) : Except Fault Ticking := do
  let popped ← w.heap.top
  let (s, h) ← w.heap.popTimer w.store
  return ⟨s, h, w.log ++ popped.toList.map .free⟩

/-- The loop of `tick`. The fuel stands for nothing in the source. -/
def tickLoop : Nat → Ticking → Option Ptr → Except Fault (Option Ticking)
  | 0, _, _ => throw .outOfFuel
  | n + 1, w, tmp => do
    if w.heap.empty then return some w
    else if tmp = none then return some w
    else if cur < (← deref w.store tmp).expire then return some w
    else
      match ← fireTop alloc callback w with
      | none => return none
      | some w => do
        let w ← popTop w
        tickLoop n w (← w.heap.get 0)

/-- `tick()` when `time(NULL)` is `cur`. An exception thrown in a callback ends it. -/
def tick (n : Nat) (s : Store HeapTimer) (h : TimeHeap) : Except Fault (Option Ticking) := do
  tickLoop alloc callback cur n ⟨s, h, []⟩ (← h.get 0)

-- ---------------------------------------------------------------------------
-- Adding a timer below the first one
-- ---------------------------------------------------------------------------

variable {alloc callback cur} {s : Store HeapTimer} {h : TimeHeap} {timer : Option Ptr} {hole : Nat}

theorem deref_expire {x : Option Ptr} : Ensures (deref s x) fun t => t.expire = expireOf s x := by
  intro t ht
  cases x with
  | none => cases ht
  | some p =>
    cases hp : s p with
    | none =>
      simp only [deref, hp] at ht
      cases ht
    | some v =>
      rw [deref_of_live hp] at ht
      cases ht
      simp [expireOf, hp]

theorem get_ensures {i : Nat} : Ensures (h.get i) fun x => x = h.array i := by
  intro x hx
  simp only [TimeHeap.get] at hx
  split at hx
  · exact (Except.ok.inj hx).symm
  · cases hx

theorem expireAt_ensures {i : Nat} : Ensures (h.expireAt s i) fun e => e = expireOf s (h.array i) :=
  .bind get_ensures fun _ hx => .bind deref_expire fun _ ht => .pure (hx ▸ ht)

theorem set_root {x : Option Ptr} {i : Nat} (hi : 0 < i) :
    Ensures (h.set i x) fun h' => h'.array 0 = h.array 0 := by
  intro h' hset
  simp only [TimeHeap.set] at hset
  split at hset
  · cases hset
    exact Function.update_of_ne hi.ne _ _
  · cases hset

/-- A timer that expires no earlier than the first one leaves it in its place. -/
theorem percolateUpLoop_root (hle : expireOf s (h.array 0) ≤ expireOf s timer) (hpos : 0 < hole) {n : Nat} :
    Ensures (percolateUpLoop s timer n h hole) fun h' => h'.array 0 = h.array 0 := by
  induction n generalizing h hole with
  | zero => exact .throw
  | succ n ih =>
    unfold percolateUpLoop
    rw [if_pos hpos]
    refine .bind expireAt_ensures fun e he => .bind deref_expire fun t ht => ?_
    by_cases hstop : e ≤ t.expire
    · rw [if_pos hstop]
      exact set_root hpos
    · rw [if_neg hstop]
      have hparent : 0 < (hole - 1) / 2 := by
        refine Nat.pos_of_ne_zero fun hzero => hstop ?_
        rw [he, ht, hzero]
        exact hle
      refine .bind_any fun x => .bind (set_root hpos) fun g hg => ?_
      exact (ih (hg ▸ hle) hparent).mono fun g' hg' => hg'.trans hg

theorem insert_root (hle : expireOf s (h.array 0) ≤ expireOf s timer) (hpos : 0 < h.curSize) :
    Ensures (h.insert s timer) fun h' => h'.array 0 = h.array 0 :=
  percolateUpLoop_root (h := { h with curSize := h.curSize + 1 }) hle hpos

theorem Ready.addTimer_root (hr : Ready s h) (alloc : Nat → Bool) {h' : TimeHeap}
    (hle : expireOf s (h.array 0) ≤ expireOf s timer) (hpos : 0 < h.curSize)
    (hrun : h.addTimer alloc s timer = .ok (some h')) : h'.array 0 = h.array 0 := by
  have hins : ∀ g : TimeHeap, g.array 0 = h.array 0 → g.curSize = h.curSize →
      (do return some (← g.insert s timer)) = (.ok (some h') : Except Fault (Option TimeHeap)) →
      h'.array 0 = h.array 0 := by
    intro g hroot hsize hg
    have hens : Ensures (do return some (← g.insert s timer)) fun h' => ∀ k ∈ h', k.array 0 = g.array 0 :=
      .bind (insert_root (hroot ▸ hle) (hsize ▸ hpos)) fun k hk => .pure (by simpa using hk)
    exact (hens _ hg h' rfl).trans hroot
  unfold TimeHeap.addTimer at hrun
  split at hrun
  · cases hrun
    rfl
  · split at hrun
    · rcases hr.resize alloc with ⟨hthrow, -⟩ | ⟨a, hres, ha⟩
      · rw [hthrow, ok_bind] at hrun
        cases hrun
      · rw [hres, ok_bind] at hrun
        exact hins ⟨a, 2 * h.capacity, h.curSize⟩ (ha 0 hpos) rfl hrun
    · exact hins h rfl rfl hrun

-- ---------------------------------------------------------------------------
-- One round of the loop
-- ---------------------------------------------------------------------------

/-- A heap in order, of capacity at least 1, that holds the timers `ts`. -/
structure Holding (s : Store HeapTimer) (h : TimeHeap) (ts : Multiset (Ptr × HeapTimer)) : Prop where
  inv : Inv ⟨s, h, ts.map Prod.fst⟩
  timer : ∀ x ∈ ts, s x.1 = some x.2

variable {ts : Multiset (Ptr × HeapTimer)} {x : Ptr × HeapTimer}

theorem expireOf_some {p : Ptr} {t : HeapTimer} (h : s p = some t) : expireOf s (some p) = t.expire := by
  simp [expireOf, h]

/-- The first timer is one of those that expire first. -/
theorem Holding.top (hh : Holding s h ts) :
    (h.empty = true ∧ ts = 0) ∨
      ∃ x ts', ts = x ::ₘ ts' ∧ h.empty = false ∧ h.array 0 = some x.1 ∧ h.top = .ok (some x.1) ∧
        ∀ y ∈ ts', x.2.expire ≤ y.2.expire := by
  have hzero : h.curSize = 0 ↔ ts.map Prod.fst = 0 := hh.inv.held_eq_zero
  rcases hh.inv.top with ⟨-, hheld⟩ | ⟨p, hp, hroot, htop, hmin⟩
  · exact .inl ⟨by simp [empty, hzero.mpr hheld], Multiset.map_eq_zero.mp hheld⟩
  · right
    obtain ⟨x, hx, rfl⟩ := Multiset.mem_map.mp hp
    obtain ⟨ts', rfl⟩ := Multiset.exists_cons_of_mem hx
    refine ⟨x, ts', rfl, by simp [empty, hzero], hroot, htop, fun y hy => ?_⟩
    have hle := hmin y.1 (Multiset.mem_map_of_mem _ (Multiset.mem_cons_of_mem hy))
    rwa [expireOf_some (hh.timer x hx), expireOf_some (hh.timer y (Multiset.mem_cons_of_mem hy))] at hle

def Added.entry (a : Added) : Ptr × HeapTimer :=
  (a.address, a.timer)

/-- Adding a new timer throws, or keeps the heap in order and a first timer that expires no
    later in its place. -/
theorem Holding.add (hh : Holding s h ts) (alloc : Nat → Bool) {a : Added} (hnew : s a.address = none) :
    (h.addTimer alloc (Function.update s a.address (some a.timer)) (some a.address) = .ok none ∧
        ∃ k, alloc k = false) ∨
      ∃ h', h.addTimer alloc (Function.update s a.address (some a.timer)) (some a.address) = .ok (some h') ∧
        Holding (Function.update s a.address (some a.timer)) h' (a.entry ::ₘ ts) ∧
        ∀ x ∈ ts, h.array 0 = some x.1 → x.2.expire ≤ a.timer.expire → h'.array 0 = some x.1 := by
  have hne : ∀ x ∈ ts, x.1 ≠ a.address := by
    rintro x hx he
    rw [← he, hh.timer x hx] at hnew
    cases hnew
  have hinv := hh.inv.new hnew a.timer
  have htimer : ∀ x ∈ ts, Function.update s a.address (some a.timer) x.1 = some x.2 := by
    intro x hx
    rw [Function.update_of_ne (hne x hx)]
    exact hh.timer x hx
  have hfree : a.address ∉ ts.map Prod.fst := by
    intro hmem
    obtain ⟨x, hx, he⟩ := Multiset.mem_map.mp hmem
    exact hne x hx he
  rcases hinv.addTimer alloc (by simp) hfree with hthrow | ⟨h', hrun, hinv'⟩
  · exact .inl ⟨hthrow, _, hinv.ready.addTimer_throws alloc hthrow⟩
  · refine .inr ⟨h', hrun, ⟨?_, ?_⟩, ?_⟩
    · rw [Multiset.map_cons]
      exact hinv'
    · intro x hx
      rcases Multiset.mem_cons.mp hx with rfl | hx
      · exact Function.update_self ..
      · exact htimer x hx
    · intro x hx hroot hle
      have hpos : 0 < h.curSize := Nat.pos_of_ne_zero fun hzero => by
        have hnil : ts.map Prod.fst = 0 := hh.inv.held_eq_zero.mp hzero
        rw [Multiset.map_eq_zero.mp hnil] at hx
        exact Multiset.notMem_zero _ hx
      rw [← hroot]
      refine hinv.ready.addTimer_root alloc ?_ hpos hrun
      change expireOf _ (h.array 0) ≤ _
      rw [hroot, expireOf_some (htimer x hx), expireOf_some (Function.update_self ..)]
      exact hle

theorem Holding.addAll (hh : Holding s h ts) (alloc : Nat → Bool) {as : List Added}
    (hnodup : (as.map Added.address).Nodup) (hnew : ∀ a ∈ as, s a.address = none) (hx : x ∈ ts)
    (hroot : h.array 0 = some x.1) (hle : ∀ a ∈ as, x.2.expire ≤ a.timer.expire) :
    (addAll alloc as s h = .ok none ∧ ∃ k, alloc k = false) ∨
      ∃ s' h', addAll alloc as s h = .ok (some (s', h')) ∧
        Holding s' h' (Multiset.ofList (as.map Added.entry) + ts) ∧ h'.array 0 = some x.1 ∧
        ∀ p ∉ as.map Added.address, s' p = s p := by
  induction as generalizing s h ts with
  | nil => exact .inr ⟨s, h, rfl, by simpa using hh, hroot, fun _ _ => rfl⟩
  | cons a as ih =>
    rw [List.map_cons, List.nodup_cons] at hnodup
    rcases hh.add alloc (hnew a List.mem_cons_self) with ⟨hthrow, halloc⟩ | ⟨h', hrun, hh', hkeep⟩
    · refine .inl ⟨?_, halloc⟩
      simp only [TimeHeap.addAll, hthrow, ok_bind]
      rfl
    · have hnew' : ∀ b ∈ as, Function.update s a.address (some a.timer) b.address = none := by
        intro b hb
        rw [Function.update_of_ne fun he : b.address = a.address => hnodup.1 (he ▸ List.mem_map_of_mem hb)]
        exact hnew b (List.mem_cons_of_mem _ hb)
      have hstep : TimeHeap.addAll alloc (a :: as) s h =
          TimeHeap.addAll alloc as (Function.update s a.address (some a.timer)) h' := by
        simp only [TimeHeap.addAll, hrun, ok_bind]
      rw [hstep]
      refine (ih hh' hnodup.2 hnew' (Multiset.mem_cons_of_mem hx)
        (hkeep x hx hroot (hle a List.mem_cons_self))
        fun b hb => hle b (List.mem_cons_of_mem _ hb)).imp_right ?_
      rintro ⟨s'', h'', hall, hh'', hroot'', hkeep''⟩
      refine ⟨s'', h'', hall, ?_, hroot'', fun p hp => ?_⟩
      · rw [List.map_cons, ← Multiset.cons_coe, Multiset.cons_add, ← Multiset.add_cons]
        exact hh''
      · rw [List.map_cons, List.mem_cons, not_or] at hp
        rw [hkeep'' p hp.2, Function.update_of_ne hp.1]

/-- `pop_timer` frees the timer in the first place. -/
theorem Holding.popTop (hh : Holding s h (x ::ₘ ts)) (hroot : h.array 0 = some x.1) (log : List TickEvent) :
    ∃ h', popTop ⟨s, h, log⟩ = .ok ⟨Function.update s x.1 none, h', log ++ [.free x.1]⟩ ∧
      Holding (Function.update s x.1 none) h' ts := by
  have hpos : 0 < h.curSize := Nat.pos_of_ne_zero fun hzero => by
    have hnil := hh.inv.held_eq_zero.mp hzero
    simp at hnil
  obtain ⟨p, h', held, hp, htop, hheld, hrun, hinv⟩ := hh.inv.popTimer hpos
  obtain rfl : x.1 = p := Option.some.inj (hroot.symm.trans hp)
  obtain rfl : ts.map Prod.fst = held := by
    rwa [Multiset.map_cons, Multiset.cons_inj_right] at hheld
  refine ⟨h', ?_, hinv, fun y hy => ?_⟩
  · simp only [TimeHeap.popTop, htop, hrun, ok_bind]
    rfl
  · have hne : y.1 ≠ x.1 := by
      intro he
      have hnd := hh.inv.nodup
      simp only [Multiset.map_cons, Multiset.nodup_cons] at hnd
      exact hnd.1 (he ▸ Multiset.mem_map_of_mem _ hy)
    rw [Function.update_of_ne hne]
    exact hh.timer y (Multiset.mem_cons_of_mem hy)

-- ---------------------------------------------------------------------------
-- The loop
-- ---------------------------------------------------------------------------

/-- `new` answers with unused addresses. -/
def Fresh (callback : HeapCallback) : Prop :=
  ∀ log s, ((callback log s).map Added.address).Nodup ∧ ∀ a ∈ callback log s, s a.address = none

/-- The callbacks read a time that is not before `cur`, and pass positive delays. -/
def Later (callback : HeapCallback) (cur : Int) : Prop :=
  ∀ log s, ∀ a ∈ callback log s, cur ≤ a.now ∧ 0 < a.delay

/-- What a tick does about a timer that is due: its callback, if it has one, and the end. -/
def fires (x : Ptr × HeapTimer) : List TickEvent :=
  x.2.cbFunc.toList.map (fun f => .call x.1 f x.2.userData) ++ [.free x.1]

def TickEvent.added : TickEvent → Option (Ptr × HeapTimer)
  | .add a => some a.entry
  | _ => none

/-- The timers added in a tick. -/
def added (log : List TickEvent) : List (Ptr × HeapTimer) :=
  log.filterMap TickEvent.added

/-- The calls and the frees of a tick. -/
def fired (log : List TickEvent) : List TickEvent :=
  log.filter fun e => e.added.isNone

theorem added_append (l l' : List TickEvent) : added (l ++ l') = added l ++ added l' :=
  List.filterMap_append

theorem fired_append (l l' : List TickEvent) : fired (l ++ l') = fired l ++ fired l' :=
  List.filter_append ..

theorem added_map_add (as : List Added) : added (as.map .add) = as.map Added.entry := by
  rw [added, List.filterMap_map]
  exact congrFun (List.filterMap_eq_map (f := Added.entry)) as

theorem fired_map_add (as : List Added) : fired (as.map .add) = [] := by
  simp [fired, TickEvent.added]

theorem Holding.fireTop (hh : Holding s h ts) (hfresh : Fresh callback) (hlater : Later callback cur)
    (alloc : Nat → Bool) (hx : x ∈ ts) (hroot : h.array 0 = some x.1) (hdue : x.2.expire ≤ cur)
    (log : List TickEvent) :
    (fireTop alloc callback ⟨s, h, log⟩ = .ok none ∧ ∃ k, alloc k = false) ∨
      ∃ s' h' log', fireTop alloc callback ⟨s, h, log⟩ = .ok (some ⟨s', h', log ++ log'⟩) ∧
        fired log' ++ [.free x.1] = fires x ∧ (∀ y ∈ added log', cur < y.2.expire) ∧
        Holding s' h' (Multiset.ofList (added log') + ts) ∧ h'.array 0 = some x.1 ∧
        ∀ p, (∀ y ∈ added log', y.1 ≠ p) → s' p = s p := by
  have hget : h.get 0 = .ok (some x.1) := by
    rw [get_ok hh.inv.pos, hroot]
  simp only [TimeHeap.fireTop, hget, ok_bind, deref_of_live (hh.timer x hx)]
  cases hcb : x.2.cbFunc with
  | none =>
    refine .inr ⟨s, h, [], by simp, by simp [fired, fires, hcb], by simp [added], ?_, hroot, fun _ _ => rfl⟩
    simpa [added] using hh
  | some f =>
    generalize hadds : callback (log ++ [.call x.1 f x.2.userData]) s = as
    obtain ⟨hnodup, hnew⟩ := hfresh (log ++ [.call x.1 f x.2.userData]) s
    rw [hadds] at hnodup hnew
    have has : ∀ a ∈ as, cur < a.timer.expire := by
      intro a ha
      obtain ⟨hnow, hdelay⟩ := hlater _ _ a (hadds.symm ▸ ha)
      simp only [Added.timer]
      omega
    rcases hh.addAll alloc hnodup hnew hx hroot fun a ha => hdue.trans (has a ha).le with
      ⟨hthrow, halloc⟩ | ⟨s', h', hrun, hh', hroot', hkeep⟩
    · refine .inl ⟨?_, halloc⟩
      simp only [hadds, hthrow, ok_bind]
      rfl
    · refine .inr ⟨s', h', .call x.1 f x.2.userData :: as.map .add, ?_, ?_, ?_, ?_, hroot', fun p hp => hkeep p ?_⟩
      · simp only [hadds, hrun, ok_bind]
        simp
      · rw [← List.singleton_append, fired_append, fired_map_add]
        simp [fired, fires, hcb, TickEvent.added]
      · rw [← List.singleton_append, added_append, added_map_add]
        simpa [added, TickEvent.added, Added.entry] using has
      · rw [← List.singleton_append, added_append, added_map_add]
        exact hh'
      · intro hmem
        obtain ⟨a, ha, rfl⟩ := List.mem_map.mp hmem
        refine hp a.entry ?_ rfl
        rw [← List.singleton_append, added_append, added_map_add]
        exact List.mem_append_right _ (List.mem_map_of_mem ha)

/-- Timers that are not due are all left over. -/
theorem filter_late {cur : Int} (h : ∀ y ∈ ts, cur < y.2.expire) :
    ts.filter (fun x => x.2.expire ≤ cur) = 0 ∧ ts.filter (fun x => cur < x.2.expire) = ts :=
  ⟨Multiset.filter_eq_nil.mpr fun y hy => not_le.mpr (h y hy), Multiset.filter_eq_self.mpr h⟩

/-- A round of the loop that finds a due timer: its callback, and the pop, which frees it. -/
theorem Holding.round (hh : Holding s h (x ::ₘ ts)) (hfresh : Fresh callback) (hlater : Later callback cur)
    (alloc : Nat → Bool) (hempty : h.empty = false) (hroot : h.array 0 = some x.1) (hdue : x.2.expire ≤ cur)
    (log : List TickEvent) :
    ((∀ n, TimeHeap.tickLoop alloc callback cur (n + 1) ⟨s, h, log⟩ (h.array 0) = .ok none) ∧ ∃ k, alloc k = false) ∨
      ∃ s' h' log',
        (∀ n, TimeHeap.tickLoop alloc callback cur (n + 1) ⟨s, h, log⟩ (h.array 0) =
          TimeHeap.tickLoop alloc callback cur n ⟨s', h', log ++ log'⟩ (h'.array 0)) ∧
        fired log' = fires x ∧ (∀ y ∈ added log', cur < y.2.expire) ∧
        Holding s' h' (Multiset.ofList (added log') + ts) ∧
        ∀ p, (∀ y ∈ added log', y.1 ≠ p) → s' p = if p = x.1 then none else s p := by
  have hx : s x.1 = some x.2 := hh.timer x (Multiset.mem_cons_self ..)
  have hlate : ¬ cur < x.2.expire := not_lt.mpr hdue
  rcases hh.fireTop hfresh hlater alloc (Multiset.mem_cons_self ..) hroot hdue log with
    ⟨hthrow, halloc⟩ | ⟨s₁, h₁, log₁, hfire, hfired, hadded, hh₁, hroot₁, hkeep⟩
  · refine .inl ⟨fun n => ?_, halloc⟩
    simp [TimeHeap.tickLoop, hempty, hroot, hx, hlate, hthrow]
  rw [Multiset.add_cons] at hh₁
  obtain ⟨h₂, hpop, hh₂⟩ := hh₁.popTop hroot₁ (log ++ log₁)
  have hfree : added (log₁ ++ [.free x.1]) = added log₁ := by
    rw [added_append]
    exact List.append_nil _
  refine .inr ⟨Function.update s₁ x.1 none, h₂, log₁ ++ [.free x.1], fun n => ?_, ?_, ?_, ?_, fun p hp => ?_⟩
  · rw [TimeHeap.tickLoop]
    simp [hempty, hroot, hx, hlate, hfire, hpop, get_ok (i := 0) hh₂.inv.pos]
  · rw [fired_append, ← hfired]
    rfl
  · rwa [hfree]
  · rwa [hfree]
  · rw [hfree] at hp
    rw [Function.update_apply, hkeep p hp]

/-- The loop pops the timers that are due, first ones first, each right after its callback. Apart
    from the timers added, it frees those and leaves the others as they were. -/
theorem Holding.tickLoop (hh : Holding s h ts) (hfresh : Fresh callback) (hlater : Later callback cur)
    (alloc : Nat → Bool) (log : List TickEvent) :
    ((∀ n, (ts.filter fun x => x.2.expire ≤ cur).card < n →
        tickLoop alloc callback cur n ⟨s, h, log⟩ (h.array 0) = .ok none) ∧ ∃ k, alloc k = false) ∨
      ∃ s' h' log' due,
        (∀ n, (ts.filter fun x => x.2.expire ≤ cur).card < n →
          tickLoop alloc callback cur n ⟨s, h, log⟩ (h.array 0) = .ok (some ⟨s', h', log ++ log'⟩)) ∧
        Multiset.ofList due = ts.filter (fun x => x.2.expire ≤ cur) ∧
        due.Pairwise (fun x y => x.2.expire ≤ y.2.expire) ∧ fired log' = due.flatMap fires ∧
        Holding s' h' (ts.filter (fun x => cur < x.2.expire) + Multiset.ofList (added log')) ∧
        ∀ p, (∀ y ∈ added log', y.1 ≠ p) → s' p = if p ∈ due.map Prod.fst then none else s p := by
  induction hk : (ts.filter fun x => x.2.expire ≤ cur).card using Nat.strong_induction_on
    generalizing s h ts log with
  | _ k ih =>
    rcases hh.top with ⟨hempty, rfl⟩ | ⟨x, ts, rfl, hempty, hroot, -, hmin⟩
    · refine .inr ⟨s, h, [], [], ?_, rfl, .nil, rfl, by simpa [added] using hh, by simp⟩
      rintro (_ | n) hn
      · exact absurd hn (Nat.not_lt_zero _)
      · simp [TimeHeap.tickLoop, hempty]
    by_cases hlate : cur < x.2.expire
    · have hall : ∀ y ∈ x ::ₘ ts, cur < y.2.expire := by
        intro y hy
        rcases Multiset.mem_cons.mp hy with rfl | hy
        · exact hlate
        · exact hlate.trans_le (hmin y hy)
      obtain ⟨hnone, hleft⟩ := filter_late hall
      refine .inr ⟨s, h, [], [], ?_, hnone.symm, .nil, rfl, ?_, by simp⟩
      · rintro (_ | n) hn
        · exact absurd hn (Nat.not_lt_zero _)
        · simp [TimeHeap.tickLoop, hempty, hroot, hh.timer x (Multiset.mem_cons_self ..), hlate]
      · rw [hleft]
        simpa [added] using hh
    · have hdue : x.2.expire ≤ cur := not_lt.mp hlate
      have hcons : (x ::ₘ ts).filter (fun x => x.2.expire ≤ cur) =
          x ::ₘ ts.filter fun x => x.2.expire ≤ cur := Multiset.filter_cons_of_pos _ hdue
      rw [hcons, Multiset.card_cons] at hk
      rcases hh.round hfresh hlater alloc hempty hroot hdue log with
        ⟨hthrow, halloc⟩ | ⟨s₁, h₁, log₁, hround, hfired, hadded, hh₁, hkeep₁⟩
      · refine .inl ⟨?_, halloc⟩
        rintro (_ | n) hn
        · exact absurd hn (Nat.not_lt_zero _)
        · exact hthrow n
      -- what is left to fire was in the heap before: the timers added are not due
      obtain ⟨hnone, hleft⟩ := filter_late fun y hy => hadded y (Multiset.mem_coe.mp hy)
      have hdue₁ : (Multiset.ofList (added log₁) + ts).filter (fun x => x.2.expire ≤ cur) =
          ts.filter fun x => x.2.expire ≤ cur := by
        rw [Multiset.filter_add, hnone, Multiset.zero_add]
      have hlate₁ : (Multiset.ofList (added log₁) + ts).filter (fun x => cur < x.2.expire) =
          Multiset.ofList (added log₁) + ts.filter fun x => cur < x.2.expire := by
        rw [Multiset.filter_add, hleft]
      have hrec := ih (ts.filter fun x => x.2.expire ≤ cur).card (by omega) hh₁ (log ++ log₁) (by rw [hdue₁])
      have hfuel : ∀ {r}, (∀ n, (ts.filter fun x => x.2.expire ≤ cur).card < n →
            TimeHeap.tickLoop alloc callback cur n ⟨s₁, h₁, log ++ log₁⟩ (h₁.array 0) = r) →
          ∀ n, k < n → TimeHeap.tickLoop alloc callback cur n ⟨s, h, log⟩ (h.array 0) = r := by
        rintro r hr (_ | n) hn
        · exact absurd hn (Nat.not_lt_zero _)
        · rw [hround]
          exact hr n (by omega)
      refine hrec.imp (fun hthrow => ⟨hfuel hthrow.1, hthrow.2⟩) ?_
      rintro ⟨s', h', log', due, hrun, hset, hpair, hlog, hh', hkeep⟩
      rw [hdue₁] at hset
      refine ⟨s', h', log₁ ++ log', x :: due, ?_, ?_, ?_, ?_, ?_, fun p hp => ?_⟩
      · simpa only [List.append_assoc] using hfuel hrun
      · rw [← Multiset.cons_coe, hset, hcons]
      · refine List.pairwise_cons.mpr ⟨fun y hy => hmin y ?_, hpair⟩
        have hy' : y ∈ Multiset.ofList due := Multiset.mem_coe.mpr hy
        rw [hset] at hy'
        exact Multiset.mem_of_mem_filter hy'
      · rw [fired_append, hlog, List.flatMap_cons, hfired]
      · rw [added_append, Multiset.filter_cons_of_neg (p := fun x : Ptr × HeapTimer => cur < x.2.expire) _ hlate]
        rw [hlate₁, Multiset.add_comm (Multiset.ofList (added log₁)), Multiset.add_assoc] at hh'
        rwa [← Multiset.coe_add]
      · simp only [added_append, List.mem_append] at hp
        rw [hkeep p fun y hy => hp y (.inr hy), hkeep₁ p fun y hy => hp y (.inl hy), List.map_cons]
        by_cases hpx : p = x.1
        · simp [hpx]
        · have hmem : p ∈ x.1 :: due.map Prod.fst ↔ p ∈ due.map Prod.fst := by rw [List.mem_cons, or_iff_right hpx]
          rw [if_neg hpx]
          exact if_congr hmem.symm rfl rfl

theorem tick_eq (hpos : 0 < h.capacity) {n : Nat} :
    tick alloc callback cur n s h = tickLoop alloc callback cur n ⟨s, h, []⟩ (h.array 0) := by
  rw [tick, get_ok hpos, ok_bind]

/-- The tick comes to an end, by an exception only where `new` throws. -/
theorem Holding.ticks (hh : Holding s h ts) (hfresh : Fresh callback) (hlater : Later callback cur)
    (alloc : Nat → Bool) :
    (Yields (fun n => tick alloc callback cur n s h) none ∧ ∃ k, alloc k = false) ∨
      ∃ s' h' log due, Yields (fun n => tick alloc callback cur n s h) (some ⟨s', h', log⟩) ∧
        Multiset.ofList due = ts.filter (fun x => x.2.expire ≤ cur) ∧
        due.Pairwise (fun x y => x.2.expire ≤ y.2.expire) ∧ fired log = due.flatMap fires ∧
        Holding s' h' (ts.filter (fun x => cur < x.2.expire) + Multiset.ofList (added log)) ∧
        ∀ p, (∀ y ∈ added log, y.1 ≠ p) → s' p = if p ∈ due.map Prod.fst then none else s p := by
  refine (hh.tickLoop hfresh hlater alloc []).imp ?_ ?_
  · rintro ⟨hthrow, halloc⟩
    exact ⟨⟨_, fun n hn => (tick_eq hh.inv.pos).trans (hthrow n hn)⟩, halloc⟩
  · rintro ⟨s', h', log, due, hrun, hrest⟩
    exact ⟨s', h', log, due, ⟨_, fun n hn => (tick_eq hh.inv.pos).trans (hrun n hn)⟩, hrest⟩

end TimeHeap

end Timers
