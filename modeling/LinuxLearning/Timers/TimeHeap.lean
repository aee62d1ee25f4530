-- SUMMARY: The timer heap of time_heap.h: its array with checked accesses, both constructors, and its operations.
import LinuxLearning.Common.Memory

/-!
# The timer heap

`array` holds `capacity` pointers, of which the first `curSize` are in use. Every
access to it is checked against the capacity, and every timer is read through the
store, so that an index out of range and a pointer to a deleted timer are faults.
Positions are counted without bound: below 2³⁰ timers they are the `int`s of the source.

Two lines of the source do not compile as they stand. `array[hole] = parent` in
`add_timer` is read as `array[hole] = array[parent]`, and `hold` in `percolate_down`
as `hole`.
-/

namespace Timers

open Memory

structure HeapTimer where
  expire : Int
  cbFunc : Option Nat
  userData : Option Ptr
deriving Repr, DecidableEq

structure TimeHeap where
  array : Nat → Option Ptr
  capacity : Nat
  curSize : Nat

variable (alloc : Nat → Bool) (s : Store HeapTimer)

namespace TimeHeap

def get (h : TimeHeap) (i : Nat) : Except Fault (Option Ptr) :=
  if i < h.capacity then .ok (h.array i) else .error (.outOfBounds i)

/-- `array` with the entry at `i` replaced. -/
def put (h : TimeHeap) (i : Nat) (x : Option Ptr) : TimeHeap :=
  { h with array := Function.update h.array i x }

def set (h : TimeHeap) (i : Nat) (x : Option Ptr) : Except Fault TimeHeap :=
  if i < h.capacity then .ok (h.put i x) else .error (.outOfBounds i)

/-- `array[i]->expire`. -/
def expireAt (h : TimeHeap) (i : Nat) : Except Fault Int := do
  return (← deref s (← h.get i)).expire

-- ---------------------------------------------------------------------------
-- percolate_down
-- ---------------------------------------------------------------------------

/-- The child that `percolate_down` compares with: the right one if it is earlier. -/
def lesserChild (h : TimeHeap) (hole : Nat) : Except Fault Nat := do
  let child := hole * 2 + 1
  if child < h.curSize - 1 then
    if (← h.expireAt s (child + 1)) < (← h.expireAt s child) then return child + 1
    else return child
  else return child

/-- The loop of `percolate_down`. The hole moves up with every iteration, so
    `curSize` of them are enough. -/
def percolateDownLoop (tmp : Option Ptr) : Nat → TimeHeap → Nat → Except Fault TimeHeap
  | 0, _, _ => throw .outOfFuel
  | n + 1, h, hole => do
    if hole * 2 + 1 ≤ h.curSize - 1 then
      let child ← h.lesserChild s hole
      if (← h.expireAt s child) < (← deref s tmp).expire then
        percolateDownLoop tmp n (← h.set hole (← h.get child)) child
      else h.set hole tmp
    else h.set hole tmp

def percolateDown (h : TimeHeap) (hole : Nat) : Except Fault TimeHeap := do
  let tmp ← h.get hole
  percolateDownLoop s tmp (h.curSize + 1) h hole

-- ---------------------------------------------------------------------------
-- Construction
-- ---------------------------------------------------------------------------

/-- `new heap_timer*[capacity]`, and the loop that sets every entry to `NULL`.
    `alloc` tells for which sizes `new` does not throw. -/
def newArray (capacity curSize : Nat) : Option TimeHeap :=
  if alloc capacity then some ⟨fun _ => none, capacity, curSize⟩ else none

/-- The loop that copies the first `n` entries from `src`. -/
def copyLoop (src : Nat → Except Fault (Option Ptr)) : Nat → TimeHeap → Except Fault TimeHeap
  | 0, h => return h
  | n + 1, h => do
    let h ← copyLoop src n h
    h.set n (← src n)

/-- The loop of the second constructor, from `i` down to 0. -/
def heapifyLoop : Nat → TimeHeap → Except Fault TimeHeap
  | 0, h => h.percolateDown s 0
  | i + 1, h => do
    let h ← h.percolateDown s (i + 1)
    heapifyLoop i h

/-- `time_heap(int cap)`. The result is `none` where the constructor throws. -/
def ofCapacity (cap : Nat) : Option TimeHeap :=
  newArray alloc cap 0

def initAt (initArray : List (Option Ptr)) (i : Nat) : Except Fault (Option Ptr) :=
  match initArray[i]? with
  | some x => .ok x
  | none => .error (.outOfBounds i)

/-- `time_heap(heap_timer** init_array, int size, int capacity)`. -/
def ofArray (initArray : List (Option Ptr)) (size capacity : Nat) : Except Fault (Option TimeHeap) :=
  if capacity < size then return none
  else
    match newArray alloc capacity size with
    | none => return none
    | some h =>
      if size ≠ 0 then do
        let h ← copyLoop (initAt initArray) size h
        return some (← heapifyLoop s ((h.curSize - 1) / 2) h)
      else return some h

-- ---------------------------------------------------------------------------
-- Operations
-- ---------------------------------------------------------------------------

def resize (h : TimeHeap) : Except Fault (Option TimeHeap) :=
  match newArray alloc (2 * h.capacity) h.curSize with
  | none => return none
  | some tmp => do return some (← copyLoop h.get h.curSize tmp)

/-- The loop of `add_timer`. The hole at least halves with every iteration. -/
def percolateUpLoop (timer : Option Ptr) : Nat → TimeHeap → Nat → Except Fault TimeHeap
  | 0, _, _ => throw .outOfFuel
  | n + 1, h, hole => do
    if 0 < hole then
      let parent := (hole - 1) / 2
      if (← h.expireAt s parent) ≤ (← deref s timer).expire then h.set hole timer
      else percolateUpLoop timer n (← h.set hole (← h.get parent)) parent
    else h.set hole timer

/-- `add_timer` behind the resizing. -/
def insert (h : TimeHeap) (timer : Option Ptr) : Except Fault TimeHeap :=
  percolateUpLoop s timer (h.curSize + 1) { h with curSize := h.curSize + 1 } h.curSize

/-- The result is `none` where `add_timer` throws. That is before any change. -/
def addTimer (h : TimeHeap) (timer : Option Ptr) : Except Fault (Option TimeHeap) := do
  if timer = none then return some h
  else if h.capacity ≤ h.curSize then
    match ← h.resize alloc with
    | none => return none
    | some h => return some (← h.insert s timer)
  else return some (← h.insert s timer)

/-- The heap is not touched: the timer stays until it is popped. -/
def delTimer (timer : Option Ptr) : Except Fault (Store HeapTimer) :=
  if timer = none then return s else modify s timer ({ · with cbFunc := none })

def empty (h : TimeHeap) : Bool :=
  h.curSize = 0

def top (h : TimeHeap) : Except Fault (Option Ptr) :=
  if h.empty then return none else h.get 0

def popTimer (h : TimeHeap) : Except Fault (Store HeapTimer × TimeHeap) := do
  if h.empty then return (s, h)
  else
    let first ← h.get 0
    if first = none then return (s, h)
    else
      let s ← free s first
      let h := { h with curSize := h.curSize - 1 }
      let h ← h.set 0 (← h.get h.curSize)
      return (s, ← h.percolateDown s 0)

end TimeHeap

end Timers
