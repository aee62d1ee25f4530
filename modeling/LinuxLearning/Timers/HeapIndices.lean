-- SUMMARY: The indexes of the timer heap over whole runs, with positions as ints: exactly where they leave the array.
import LinuxLearning.Common.CString
import LinuxLearning.Common.Run
import LinuxLearning.Timers.HeapTick

/-!
# The indexes of the timer heap

`LinuxLearning.Timers.TimeHeap` counts positions without bound. Here they are `int`s, and
the two agree as long as the heap holds fewer than 2³⁰ timers. The timers are arbitrary: they
need not be in order, and may be null or deleted. A tick goes statement by statement, and in a
callback the client may call whatever it may call outside.
-/

namespace Timers

open Memory CString Transition

namespace TimeHeap

-- ---------------------------------------------------------------------------
-- Positions as ints
-- ---------------------------------------------------------------------------

variable (alloc : Nat → Bool) (s : Store HeapTimer)

/-- A value of type `int`. -/
def asInt (v : Nat) : Except Fault Nat :=
  if v ≤ intMax then .ok v else .error (.intOverflow v)

/-- The loop of `percolate_down`. -/
def percolateDownLoopInt (tmp : Option Ptr) : Nat → TimeHeap → Nat → Except Fault TimeHeap
  | 0, _, _ => throw .outOfFuel
  | n + 1, h, hole => do
    let left ← asInt (hole * 2 + 1)
    if left ≤ h.curSize - 1 then
      let child ← h.lesserChild s hole
      if (← h.expireAt s child) < (← deref s tmp).expire then
        percolateDownLoopInt tmp n (← h.set hole (← h.get child)) child
      else h.set hole tmp
    else h.set hole tmp

def percolateDownInt (h : TimeHeap) (hole : Nat) : Except Fault TimeHeap := do
  let tmp ← h.get hole
  percolateDownLoopInt s tmp (h.curSize + 1) h hole

def heapifyLoopInt : Nat → TimeHeap → Except Fault TimeHeap
  | 0, h => h.percolateDownInt s 0
  | i + 1, h => do
    let h ← h.percolateDownInt s (i + 1)
    heapifyLoopInt i h

/-- `time_heap(heap_timer** init_array, int size, int capacity)`. -/
def ofArrayInt (initArray : List (Option Ptr)) (size capacity : Nat) : Except Fault (Option TimeHeap) :=
  if capacity < size then return none
  else
    match newArray alloc capacity size with
    | none => return none
    | some h =>
      if size ≠ 0 then do
        let h ← copyLoop (initAt initArray) size h
        return some (← heapifyLoopInt s ((h.curSize - 1) / 2) h)
      else return some h

def resizeInt (h : TimeHeap) : Except Fault (Option TimeHeap) := do
  let _ ← asInt (2 * h.capacity)
  h.resize alloc

def addTimerInt (h : TimeHeap) (timer : Option Ptr) : Except Fault (Option TimeHeap) := do
  if timer = none then return some h
  else if h.capacity ≤ h.curSize then
    match ← h.resizeInt alloc with
    | none => return none
    | some h => return some (← h.insert s timer)
  else return some (← h.insert s timer)

def popTimerInt (h : TimeHeap) : Except Fault (Store HeapTimer × TimeHeap) := do
  if h.empty then return (s, h)
  else
    let first ← h.get 0
    if first = none then return (s, h)
    else
      let s ← free s first
      let h := { h with curSize := h.curSize - 1 }
      let h ← h.set 0 (← h.get h.curSize)
      return (s, ← h.percolateDownInt s 0)

variable {alloc s} {h : TimeHeap} {tmp timer : Option Ptr} {hole n : Nat}

-- ---------------------------------------------------------------------------
-- Indexes in range
-- ---------------------------------------------------------------------------

/-- A fault of a timer, which is null or deleted, and not of an index. -/
def OfTimer : Fault → Prop
  | .nullPointer => True
  | .dangling _ => True
  | _ => False

/-- A heap on an array of the same length with as many timers in use. -/
def SameSize (h h' : TimeHeap) : Prop :=
  h'.capacity = h.capacity ∧ h'.curSize = h.curSize

theorem get_within {i : Nat} (hi : i < h.capacity) : Within OfTimer (h.get i) fun _ => True := by
  rw [get_ok hi]
  trivial

theorem set_within {i : Nat} (hi : i < h.capacity) (x : Option Ptr) : Within OfTimer (h.set i x) (SameSize h) := by
  rw [set_ok hi]
  exact ⟨rfl, rfl⟩

theorem deref_within (x : Option Ptr) : Within OfTimer (deref s x) fun _ => True := by
  cases x with
  | none => trivial
  | some p =>
    simp only [deref]
    split <;> trivial

theorem free_within (x : Option Ptr) : Within OfTimer (free s x) fun _ => True := by
  cases x with
  | none => trivial
  | some p =>
    simp only [free]
    split <;> trivial

theorem expireAt_within {i : Nat} (hi : i < h.capacity) : Within OfTimer (h.expireAt s i) fun _ => True :=
  .bind (get_within hi) fun x _ => .bind (deref_within x) fun _ _ => .pure trivial

theorem lesserChild_within (hle : h.curSize ≤ h.capacity) (hleft : hole * 2 + 1 < h.curSize) :
    Within OfTimer (h.lesserChild s hole) fun c => hole < c ∧ c < h.curSize := by
  unfold lesserChild
  refine .ite (fun hright => ?_) fun _ => .pure ⟨by omega, hleft⟩
  refine .bind (expireAt_within (by omega)) fun _ _ => .bind (expireAt_within (by omega)) fun _ _ => ?_
  exact .ite (fun _ => .pure ⟨by omega, by omega⟩) fun _ => .pure ⟨by omega, hleft⟩

theorem percolateDownLoop_within (hle : h.curSize ≤ h.capacity) (hhole : hole < h.capacity) (hn : h.curSize ≤ n + hole)
    (hpos : 0 < n) : Within OfTimer (percolateDownLoop s tmp n h hole) (SameSize h) := by
  induction n generalizing h hole with
  | zero => omega
  | succ n ih =>
    unfold percolateDownLoop
    refine .ite (fun hleft => ?_) fun _ => set_within hhole tmp
    refine .bind (lesserChild_within hle (by omega)) fun c hchild => ?_
    obtain ⟨hlt, hc⟩ := hchild
    refine .bind (expireAt_within (by omega)) fun _ _ => .bind (deref_within tmp) fun _ _ => ?_
    refine .ite (fun _ => ?_) fun _ => set_within hhole tmp
    -- the hole moves down to the child
    refine .bind (get_within (by omega)) fun x _ => .bind (set_within hhole x) fun g hsame => ?_
    obtain ⟨hcap, hsize⟩ := hsame
    refine (ih (by omega) (by omega) (by omega) (by omega)).mono fun g' hsame' => ?_
    exact ⟨hsame'.1.trans hcap, hsame'.2.trans hsize⟩

theorem percolateDown_within (hle : h.curSize ≤ h.capacity) (hhole : hole < h.capacity) :
    Within OfTimer (h.percolateDown s hole) (SameSize h) :=
  .bind (get_within hhole) fun _ _ => percolateDownLoop_within hle hhole (by omega) (by omega)

theorem heapifyLoop_within {i : Nat} (hle : h.curSize ≤ h.capacity) (hi : i < h.capacity) :
    Within OfTimer (heapifyLoop s i h) (SameSize h) := by
  induction i generalizing h with
  | zero => exact percolateDown_within hle hi
  | succ i ih =>
    refine .bind (percolateDown_within hle hi) fun g ⟨hcap, hsize⟩ => ?_
    refine (ih (by omega) (by omega)).mono fun g' ⟨hcap', hsize'⟩ => ?_
    exact ⟨hcap'.trans hcap, hsize'.trans hsize⟩

theorem copyLoop_within {src : Nat → Except Fault (Option Ptr)}
    (hsrc : ∀ i, i < n → Within OfTimer (src i) fun _ => True) (hn : n ≤ h.capacity) :
    Within OfTimer (copyLoop src n h) (SameSize h) := by
  induction n with
  | zero => exact .pure ⟨rfl, rfl⟩
  | succ n ih =>
    refine .bind (ih (fun i hi => hsrc i (hi.trans (Nat.lt_succ_self n))) (by omega)) fun g ⟨hcap, hsize⟩ => ?_
    refine .bind (hsrc n (Nat.lt_succ_self n)) fun x _ => (set_within (by omega) x).mono fun g' ⟨hcap', hsize'⟩ => ?_
    exact ⟨hcap'.trans hcap, hsize'.trans hsize⟩

theorem initAt_within {ps : List (Option Ptr)} {i : Nat} (hi : i < ps.length) :
    Within OfTimer (initAt ps i) fun _ => True := by
  simp only [initAt, List.getElem?_eq_getElem hi]
  trivial

theorem ofArray_within (alloc : Nat → Bool) (ps : List (Option Ptr)) (capacity : Nat) :
    Within OfTimer (ofArray alloc s ps ps.length capacity) fun o =>
      ∀ h ∈ o, h.capacity = capacity ∧ h.curSize = ps.length ∧ h.curSize ≤ h.capacity := by
  unfold ofArray newArray
  refine .ite (fun _ => .pure nofun) fun hsize => ?_
  cases alloc capacity with
  | false => exact .pure nofun
  | true =>
    refine .ite (fun hne => ?_) fun _ => .pure ?_
    · refine .bind (copyLoop_within (fun _ => initAt_within) (by simp only; omega)) fun g ⟨hcap, hsize'⟩ => ?_
      simp only at hcap hsize'
      refine .bind (heapifyLoop_within (by omega) (by omega)) fun g' ⟨hcap', hsize''⟩ => .pure ?_
      rintro _ ⟨⟩
      exact ⟨by omega, by omega, by omega⟩
    · rintro _ ⟨⟩
      exact ⟨rfl, rfl, not_lt.mp hsize⟩

theorem resize_within (alloc : Nat → Bool) (hle : h.curSize ≤ h.capacity) :
    Within OfTimer (h.resize alloc) fun o => ∀ g ∈ o, g.capacity = 2 * h.capacity ∧ g.curSize = h.curSize := by
  unfold resize newArray
  cases alloc (2 * h.capacity) with
  | false => exact .pure nofun
  | true =>
    refine .bind (copyLoop_within (fun i hi => get_within (by omega)) (by simp only; omega)) fun g hg => .pure ?_
    rintro _ ⟨⟩
    exact hg

theorem percolateUpLoop_within (hhole : hole < h.capacity) (hn : hole < n) :
    Within OfTimer (percolateUpLoop s timer n h hole) (SameSize h) := by
  induction n generalizing h hole with
  | zero => omega
  | succ n ih =>
    unfold percolateUpLoop
    refine .ite (fun hpos => ?_) fun _ => set_within hhole timer
    refine .bind (expireAt_within (by omega)) fun _ _ => .bind (deref_within timer) fun _ _ => ?_
    refine .ite (fun _ => set_within hhole timer) fun _ => ?_
    -- the hole moves up to the parent
    refine .bind (get_within (by omega)) fun x _ => .bind (set_within hhole x) fun g hsame => ?_
    obtain ⟨hcap, hsize⟩ := hsame
    refine (ih (by omega) (by omega)).mono fun g' hsame' => ?_
    exact ⟨hsame'.1.trans hcap, hsame'.2.trans hsize⟩

theorem insert_within (hroom : h.curSize < h.capacity) :
    Within OfTimer (h.insert s timer) fun g => g.capacity = h.capacity ∧ g.curSize = h.curSize + 1 :=
  percolateUpLoop_within (h := { h with curSize := h.curSize + 1 }) hroom (Nat.lt_succ_self _)

/-- With a capacity of at least 1, doubling makes room. -/
theorem addTimer_within (alloc : Nat → Bool) (hle : h.curSize ≤ h.capacity) (hcap : 0 < h.capacity) :
    Within OfTimer (h.addTimer alloc s timer) fun o =>
      ∀ g ∈ o, g.curSize ≤ g.capacity ∧ 0 < g.capacity ∧ g.curSize ≤ h.curSize + 1 := by
  have hinsert : ∀ g : TimeHeap, g.curSize < g.capacity → g.curSize = h.curSize →
      Within OfTimer (do return some (← g.insert s timer)) fun o =>
        ∀ g ∈ o, g.curSize ≤ g.capacity ∧ 0 < g.capacity ∧ g.curSize ≤ h.curSize + 1 := by
    intro g hroom hsize
    refine .bind (insert_within hroom) fun g' ⟨hcap', hsize'⟩ => .pure ?_
    rintro _ ⟨⟩
    omega
  unfold addTimer
  refine .ite (fun _ => .pure ?_) fun _ => .ite (fun hfull => ?_) fun hroom => hinsert h (by omega) rfl
  · rintro _ ⟨⟩
    exact ⟨hle, hcap, by omega⟩
  · refine .bind (resize_within alloc hle) fun o ho => ?_
    cases o with
    | none => exact .pure nofun
    | some g =>
      obtain ⟨hcap', hsize'⟩ := ho g rfl
      exact hinsert g (by omega) hsize'

theorem top_within (hle : h.curSize ≤ h.capacity) : Within OfTimer h.top fun _ => True := by
  unfold top empty
  refine .ite (fun _ => .pure trivial) fun hne => get_within ?_
  simp only [decide_eq_true_eq] at hne
  omega

theorem popTimer_within (hle : h.curSize ≤ h.capacity) :
    Within OfTimer (h.popTimer s) fun r => r.2.capacity = h.capacity ∧ r.2.curSize ≤ h.curSize := by
  unfold popTimer empty
  refine .ite (fun _ => .pure ⟨rfl, le_refl _⟩) fun hne => ?_
  simp only [decide_eq_true_eq] at hne
  refine .bind (get_within (by omega)) fun first _ => .ite (fun _ => .pure ⟨rfl, le_refl _⟩) fun _ => ?_
  refine .bind (free_within first) fun s' _ => ?_
  refine .bind (get_within (h := { h with curSize := h.curSize - 1 }) (by simp only; omega)) fun x _ => ?_
  refine .bind (set_within (h := { h with curSize := h.curSize - 1 }) (by simp only; omega) x) fun g ⟨hcap, hsize⟩ => ?_
  simp only at hcap hsize
  refine .bind (percolateDown_within (by omega) (by omega)) fun g' ⟨hcap', hsize'⟩ => .pure ⟨?_, ?_⟩
  · exact hcap'.trans hcap
  · simp only
    omega

-- ---------------------------------------------------------------------------
-- Ints suffice below 2³⁰ timers
-- ---------------------------------------------------------------------------

theorem asInt_ok {v : Nat} (hv : v < 2 ^ 31) : asInt v = .ok v :=
  if_pos (by unfold intMax; omega)

theorem percolateDownLoopInt_eq (hle : h.curSize ≤ h.capacity) (hfew : h.curSize < 2 ^ 30) (hhole : hole < h.capacity)
    (hint : hole < 2 ^ 30) : percolateDownLoopInt s tmp n h hole = percolateDownLoop s tmp n h hole := by
  induction n generalizing h hole with
  | zero => rfl
  | succ n ih =>
    unfold percolateDownLoopInt percolateDownLoop
    rw [asInt_ok (by omega), ok_bind]
    by_cases hleft : hole * 2 + 1 ≤ h.curSize - 1
    · rw [if_pos hleft, if_pos hleft]
      refine (lesserChild_within hle (by omega)).ensures.bind_congr fun c hchild => ?_
      obtain ⟨hlt, hc⟩ := hchild
      refine (expireAt_within (by omega)).ensures.bind_congr fun e _ => (deref_within tmp).ensures.bind_congr fun t _ => ?_
      refine if_congr Iff.rfl ?_ rfl
      refine (get_within (by omega)).ensures.bind_congr fun x _ =>
        (set_within hhole x).ensures.bind_congr fun g hsame => ?_
      obtain ⟨hcap, hsize⟩ := hsame
      exact ih (by omega) (by omega) (by omega) (by omega)
    · rw [if_neg hleft, if_neg hleft]

theorem percolateDownInt_eq (hle : h.curSize ≤ h.capacity) (hfew : h.curSize < 2 ^ 30) (hhole : hole < h.capacity)
    (hint : hole < 2 ^ 30) : h.percolateDownInt s hole = h.percolateDown s hole :=
  (get_within hhole).ensures.bind_congr fun _ _ => percolateDownLoopInt_eq hle hfew hhole hint

theorem heapifyLoopInt_eq {i : Nat} (hle : h.curSize ≤ h.capacity) (hfew : h.curSize < 2 ^ 30) (hi : i < h.capacity)
    (hint : i < 2 ^ 30) : heapifyLoopInt s i h = heapifyLoop s i h := by
  induction i generalizing h with
  | zero => exact percolateDownInt_eq hle hfew hi hint
  | succ i ih =>
    unfold heapifyLoopInt heapifyLoop
    rw [percolateDownInt_eq hle hfew hi hint]
    refine (percolateDown_within hle hi).ensures.bind_congr fun g hsame => ?_
    obtain ⟨hcap, hsize⟩ := hsame
    exact ih (by omega) (by omega) (by omega) (by omega)

theorem ofArrayInt_eq (alloc : Nat → Bool) {ps : List (Option Ptr)} (hfew : ps.length < 2 ^ 30) (capacity : Nat) :
    ofArrayInt alloc s ps ps.length capacity = ofArray alloc s ps ps.length capacity := by
  unfold ofArrayInt ofArray newArray
  refine ite_congr rfl (fun _ => rfl) fun hsize => ?_
  cases alloc capacity with
  | false => rfl
  | true =>
    refine ite_congr rfl (fun hne => ?_) fun _ => rfl
    refine (copyLoop_within (fun _ => initAt_within) (by simp only; omega)).ensures.bind_congr fun g ⟨hcap, hsize'⟩ => ?_
    simp only at hcap hsize'
    rw [heapifyLoopInt_eq (by omega) (by omega) (by omega) (by omega)]

theorem resizeInt_eq (alloc : Nat → Bool) (hcap : h.capacity < 2 ^ 30) : h.resizeInt alloc = h.resize alloc := by
  rw [resizeInt, asInt_ok (by omega), ok_bind]

theorem addTimerInt_eq (alloc : Nat → Bool) (hle : h.curSize ≤ h.capacity) (hfew : h.curSize < 2 ^ 30) :
    h.addTimerInt alloc s timer = h.addTimer alloc s timer := by
  unfold addTimerInt addTimer
  refine ite_congr rfl (fun _ => rfl) fun _ => ite_congr rfl (fun hfull => ?_) fun _ => rfl
  exact (congrArg (· >>= _) (resizeInt_eq alloc (by omega))).trans rfl

theorem popTimerInt_eq (hle : h.curSize ≤ h.capacity) (hfew : h.curSize < 2 ^ 30) :
    h.popTimerInt s = h.popTimer s := by
  unfold popTimerInt popTimer empty
  refine ite_congr rfl (fun _ => rfl) fun hne => ?_
  simp only [decide_eq_true_eq] at hne
  refine Ensures.bind_congr (P := fun _ => True) (fun _ _ => trivial) fun first _ => ite_congr rfl (fun _ => rfl) fun _ => ?_
  refine (free_within first).ensures.bind_congr fun s' _ => ?_
  refine (get_within (h := { h with curSize := h.curSize - 1 }) (by simp only; omega)).ensures.bind_congr fun x _ => ?_
  refine (set_within (h := { h with curSize := h.curSize - 1 }) (by simp only; omega) x).ensures.bind_congr
    fun g ⟨hcap, hsize⟩ => ?_
  simp only at hcap hsize
  rw [percolateDownInt_eq (by omega) (by omega) (by omega) (by omega)]

-- ---------------------------------------------------------------------------
-- Runs
-- ---------------------------------------------------------------------------

/-- Where a tick is: at the test of its loop, at `if(array[0]->cb_func)`, in the callback, or at
    `pop_timer()`. -/
inductive Place where
  | test (tmp : Option Ptr)
  | fire
  | callback
  | pop
deriving Repr, DecidableEq

/-- A tick under way, with what `time(NULL)` has returned. -/
structure Underway where
  cur : Int
  place : Place
deriving Repr, DecidableEq

/-- A heap in use, with the ticks that are under way, innermost first. -/
structure Use where
  store : Store HeapTimer
  heap : TimeHeap
  ticks : List Underway

def Use.start (s : Store HeapTimer) (h : TimeHeap) : Use :=
  ⟨s, h, []⟩

/-- The client runs, outside of a tick or in a callback. -/
def Use.Free (u : Use) : Prop :=
  ∀ t ts, u.ticks = t :: ts → t.place = .callback

/-- The next statement of the tick `t`, which is called from `ts`. -/
def Use.next (u : Use) (t : Underway) (ts : List Underway) : Except Fault Use :=
  match t.place with
  | .test tmp => do
    if u.heap.empty then return { u with ticks := ts }
    else if tmp = none then return { u with ticks := ts }
    else if t.cur < (← deref u.store tmp).expire then return { u with ticks := ts }
    else return { u with ticks := ⟨t.cur, .fire⟩ :: ts }
  | .fire => do
    let first ← deref u.store (← u.heap.get 0)
    return { u with ticks := ⟨t.cur, if first.cbFunc = none then .pop else .callback⟩ :: ts }
  | .callback => return { u with ticks := ⟨t.cur, .pop⟩ :: ts }
  | .pop => do
    let (s, h) ← u.heap.popTimerInt u.store
    let tmp ← h.get 0
    return ⟨s, h, ⟨t.cur, .test tmp⟩ :: ts⟩

/-- What happens. `timers` is whatever the client does to timers, `del_timer` included, and
    `throw` leaves a callback by an exception. -/
inductive Call where
  | ofCapacity (alloc : Nat → Bool) (s : Store HeapTimer) (cap : Nat)
  | ofArray (alloc : Nat → Bool) (s : Store HeapTimer) (initArray : List (Option Ptr)) (capacity : Nat)
  | timers (s : Store HeapTimer)
  | addTimer (alloc : Nat → Bool) (timer : Option Ptr)
  | popTimer
  | top
  | tick (cur : Int)
  | next
  | throw

/-- No heap yet, a heap, or a fault, which is the end. -/
abbrev Outcome := Except Fault (Option Use)

inductive Step : Outcome → Call → Outcome → Prop where
  | ofCapacity (alloc : Nat → Bool) (s : Store HeapTimer) (cap : Nat) :
      Step (.ok none) (.ofCapacity alloc s cap) (.ok ((TimeHeap.ofCapacity alloc cap).map (Use.start s)))
  | ofArray (alloc : Nat → Bool) (s : Store HeapTimer) (initArray : List (Option Ptr)) (capacity : Nat) :
      Step (.ok none) (.ofArray alloc s initArray capacity) (do
        return (← ofArrayInt alloc s initArray initArray.length capacity).map (Use.start s))
  | timers {u : Use} (s : Store HeapTimer) : u.Free →
      Step (.ok (some u)) (.timers s) (.ok (some { u with store := s }))
  | addTimer {u : Use} (alloc : Nat → Bool) (timer : Option Ptr) : u.Free →
      Step (.ok (some u)) (.addTimer alloc timer) (do
        match ← u.heap.addTimerInt alloc u.store timer with
        | none => return some u
        | some h => return some { u with heap := h })
  | popTimer {u : Use} : u.Free →
      Step (.ok (some u)) .popTimer (do
        let (s, h) ← u.heap.popTimerInt u.store
        return some { u with store := s, heap := h })
  | top {u : Use} : u.Free →
      Step (.ok (some u)) .top (do
        let _ ← u.heap.top
        return some u)
  | tick {u : Use} (cur : Int) : u.Free →
      Step (.ok (some u)) (.tick cur) (do
        let tmp ← u.heap.get 0
        return some { u with ticks := ⟨cur, .test tmp⟩ :: u.ticks })
  | next {u : Use} {t : Underway} {ts : List Underway} : u.ticks = t :: ts →
      Step (.ok (some u)) .next (do return some (← u.next t ts))
  | throw {u : Use} {t : Underway} {ts : List Underway} : u.ticks = t :: ts → t.place = .callback →
      Step (.ok (some u)) .throw (.ok (some { u with ticks := ts }))

/-- No index has left the array, and `cur_size` is within the capacity. -/
def InRange (r : Outcome) : Prop :=
  Within OfTimer r fun o => ∀ u ∈ o, u.heap.curSize ≤ u.heap.capacity

/-- The heap is made from fewer than 2³⁰ timers, and holds fewer. -/
def Few (c : Call) (r : Outcome) : Prop :=
  (∀ alloc s initArray capacity, c = .ofArray alloc s initArray capacity → initArray.length < 2 ^ 30) ∧
    ∀ u, r = .ok (some u) → u.heap.curSize < 2 ^ 30

/-- A tick, or a timer added on an array that `new` provides, at capacity 0. -/
def Overruns : Outcome → Call → Prop
  | .ok (some u), .tick _ => u.heap.capacity = 0
  | .ok (some u), .addTimer alloc (some _) => u.heap.capacity = 0 ∧ alloc 0 = true
  | _, _ => False

/-- What every step keeps of a heap in use. -/
structure Sized (u : Use) : Prop where
  le : u.heap.curSize ≤ u.heap.capacity
  ticking : u.ticks ≠ [] → 0 < u.heap.capacity

/-- The invariant of a run. -/
def Fits (r : Outcome) : Prop :=
  Within OfTimer r fun o => ∀ u ∈ o, Sized u ∧ u.heap.curSize < 2 ^ 30

variable {u : Use} {r r' : Outcome} {c : Call}

theorem addTimerInt_none (h : TimeHeap) : h.addTimerInt alloc s none = .ok (some h) := by
  unfold addTimerInt
  rw [if_pos rfl]
  rfl

/-- Twice nothing is nothing: the timer is written to position 0 of an array of no entries, if
    `new` provides one. -/
theorem addTimerInt_capacity_zero {p : Ptr} (hcap : h.capacity = 0) (hsize : h.curSize = 0) :
    h.addTimerInt alloc s (some p) = if alloc 0 = true then .error (.outOfBounds 0) else .ok none := by
  obtain ⟨array, capacity, curSize⟩ := h
  obtain rfl : capacity = 0 := hcap
  obtain rfl : curSize = 0 := hsize
  cases halloc : alloc 0 with
  | false => simp [addTimerInt, resizeInt, asInt, intMax, resize, newArray, halloc]
  | true =>
    simp [addTimerInt, resizeInt, asInt, intMax, resize, newArray, halloc, copyLoop, insert, percolateUpLoop, TimeHeap.set]
    rfl

/-- At capacity 0, `add_timer` is in range where it does nothing. -/
theorem addTimerInt_within (hle : h.curSize ≤ h.capacity) (hfew : h.curSize < 2 ^ 30)
    (hroom : ∀ p, timer = some p → h.capacity = 0 → ¬ alloc 0 = true) :
    Within OfTimer (h.addTimerInt alloc s timer) fun o =>
      ∀ g ∈ o, g.curSize ≤ g.capacity ∧ (0 < h.capacity → 0 < g.capacity) := by
  cases timer with
  | none =>
    rw [addTimerInt_none]
    rintro _ ⟨⟩
    exact ⟨hle, id⟩
  | some p =>
    by_cases hcap : h.capacity = 0
    · rw [addTimerInt_capacity_zero hcap (by omega), if_neg (hroom p rfl hcap)]
      exact nofun
    · rw [addTimerInt_eq alloc hle hfew]
      exact (addTimer_within alloc hle (by omega)).mono fun o ho g hg => ⟨(ho g hg).1, fun _ => (ho g hg).2.1⟩

theorem Sized.next (hu : Sized u) (hfew : u.heap.curSize < 2 ^ 30) {t : Underway} {ts : List Underway}
    (hticks : u.ticks = t :: ts) : Within OfTimer (u.next t ts) Sized := by
  have hcap : 0 < u.heap.capacity := hu.ticking (by rw [hticks]; exact List.cons_ne_nil _ _)
  unfold Use.next
  cases t.place with
  | test tmp =>
    have hstay : ∀ ts', Sized { u with ticks := ts' } := fun _ => ⟨hu.le, fun _ => hcap⟩
    refine .ite (fun _ => .pure (hstay _)) fun _ => .ite (fun _ => .pure (hstay _)) fun _ => ?_
    refine .bind (deref_within tmp) fun _ _ => .ite (fun _ => .pure (hstay _)) fun _ => .pure (hstay _)
  | fire => exact .bind (get_within hcap) fun _ _ => .bind (deref_within _) fun _ _ => .pure ⟨hu.le, fun _ => hcap⟩
  | callback => exact .pure ⟨hu.le, fun _ => hcap⟩
  | pop =>
    simp only [popTimerInt_eq hu.le hfew]
    refine .bind (popTimer_within hu.le) fun ⟨s', h'⟩ ⟨hcap', hsize'⟩ => ?_
    have hle := hu.le
    simp only at hcap' hsize'
    exact .bind (get_within (by omega)) fun _ _ => .pure ⟨show h'.curSize ≤ h'.capacity by omega, fun _ => hcap' ▸ hcap⟩

theorem Fits.step (hr : Fits r) (h : Step r c r') (hfew : Few c r') (hgood : ¬ Overruns r c) : Fits r' := by
  suffices hsized : Within OfTimer r' fun o => ∀ u ∈ o, Sized u by
    cases r' with
    | error e => exact hsized
    | ok o => exact fun u hu => ⟨hsized u hu, hfew.2 u (hu ▸ rfl)⟩
  cases h with
  | ofCapacity alloc s cap =>
    unfold TimeHeap.ofCapacity newArray
    cases alloc cap with
    | false => exact nofun
    | true =>
      rintro _ ⟨⟩
      exact ⟨Nat.zero_le _, fun h => absurd rfl h⟩
  | ofArray alloc s initArray capacity =>
    rw [ofArrayInt_eq alloc (hfew.1 _ _ _ _ rfl)]
    refine .bind (ofArray_within alloc initArray capacity) fun o ho => .pure fun u hu => ?_
    obtain ⟨h, hh, rfl⟩ := Option.map_eq_some_iff.mp hu
    exact ⟨(ho h hh).2.2, fun h => absurd rfl h⟩
  | timers s _ =>
    rintro _ ⟨⟩
    exact ⟨(hr _ rfl).1.le, (hr _ rfl).1.ticking⟩
  | @addTimer u alloc timer _ =>
    obtain ⟨hu, hfew'⟩ := hr u rfl
    have hroom : ∀ p, timer = some p → u.heap.capacity = 0 → ¬ alloc 0 = true := by
      rintro p rfl hcap halloc
      exact hgood ⟨hcap, halloc⟩
    refine .bind (addTimerInt_within hu.le hfew' hroom) fun o ho => ?_
    cases o with
    | none =>
      rintro _ ⟨⟩
      exact hu
    | some g =>
      rintro _ ⟨⟩
      exact ⟨(ho g rfl).1, fun hticks => (ho g rfl).2 (hu.ticking hticks)⟩
  | @popTimer u _ =>
    obtain ⟨hu, hfew'⟩ := hr u rfl
    rw [popTimerInt_eq hu.le hfew']
    refine .bind (popTimer_within hu.le) fun ⟨s', h'⟩ ⟨hcap', hsize'⟩ => ?_
    rintro _ ⟨⟩
    have hle := hu.le
    simp only at hcap' hsize'
    exact ⟨show h'.curSize ≤ h'.capacity by omega, fun hticks => hcap' ▸ hu.ticking hticks⟩
  | @top u _ =>
    refine .bind (top_within (hr u rfl).1.le) fun _ _ => ?_
    rintro _ ⟨⟩
    exact (hr u rfl).1
  | @tick u cur _ =>
    have hcap : 0 < u.heap.capacity := Nat.pos_of_ne_zero hgood
    refine .bind (get_within hcap) fun _ _ => ?_
    rintro _ ⟨⟩
    exact ⟨(hr u rfl).1.le, fun _ => hcap⟩
  | @next u t ts hticks =>
    refine .bind ((hr u rfl).1.next (hr u rfl).2 hticks) fun u' hu' => ?_
    rintro _ ⟨⟩
    exact hu'
  | @throw u t ts hticks _ =>
    rintro _ ⟨⟩
    exact ⟨(hr u rfl).1.le, fun _ => (hr u rfl).1.ticking (by rw [hticks]; exact List.cons_ne_nil _ _)⟩

end TimeHeap

end Timers
