-- SUMMARY: The event base of Libevent: the handlers of a descriptor in its I/O map, the queues of registered and active handlers, and the backend.
import LinuxLearning.Common.Memory
import LinuxLearning.Common.Run

/-!
# The event base

`event_add_internal` puts a handler into the map of the I/O events and into the queue of the
registered handlers, and tells the backend what it has to watch a descriptor for. The memory
allocations and the backend may fail. The handlers are added without a timeout, and by the thread
that runs the event loop, which waits for no callback.
-/

namespace Libevent

open Memory Transition

/-- A `short` of flags. -/
abbrev Flags := BitVec 16

def evRead : Flags := .twoPow 16 1
def evWrite : Flags := .twoPow 16 2
def evSignal : Flags := .twoPow 16 3
def evEt : Flags := .twoPow 16 5

def evlistInserted : Flags := .twoPow 16 1
def evlistActive : Flags := .twoPow 16 3
def evlistInternal : Flags := .twoPow 16 4

/-- The flags that there are. -/
def evlistAll : Flags := 0xf000 ||| 0x9f

/-- `struct event`. -/
structure Handler where
  evFd : Int
  evEvents : Flags
  evFlags : Flags
  evPri : Nat
deriving Repr, DecidableEq

structure EvmapIo where
  events : List Ptr
  nread : UInt16
  nwrite : UInt16
deriving Repr, DecidableEq

/-- A call of `evsel->add`. -/
structure Watch where
  fd : Int
  old : Flags
  events : Flags
deriving Repr, DecidableEq

/-- `struct event_base`, with the handlers in memory, and the successful calls of `evsel->add`. -/
structure EventBase where
  handlers : Store Handler
  io : Int → Option EvmapIo
  nentries : Int
  evsel : List Watch
  eventCount : Nat
  eventCountActive : Nat
  eventqueue : List Ptr
  activequeue : List (List Ptr)

/-- How the calls of a step end: the new size of the map if it could grow, whether there was memory
    for a slot, whether the backend could watch the descriptor, and what `evmap_signal_add` returns. -/
structure Outcome where
  space : Option Int
  slot : Bool
  add : Bool
  signal : Int

namespace EventBase

/-- `evmap_make_space`, where it is called. -/
def makeSpace (b : EventBase) (fd : Int) (o : Outcome) : Option EventBase :=
  if b.nentries ≤ fd then o.space.map fun n => { b with nentries := n } else some b

/-- `GET_IO_SLOT_AND_CTOR`. -/
def getIoSlot (b : EventBase) (fd : Int) (o : Outcome) : Option (EventBase × EvmapIo) :=
  match b.io fd with
  | some ctx => some (b, ctx)
  | none =>
    if o.slot then some ({ b with io := Function.update b.io fd (some ⟨[], 0, 0⟩) }, ⟨[], 0, 0⟩) else none

/-- `evmap_io_add` behind the slot, outside of the debug mode. -/
def ioAdd (b : EventBase) (fd : Int) (p : Ptr) (ev : Handler) (ctx : EvmapIo) (o : Outcome) : EventBase × Int :=
  let old := (if ctx.nread ≠ 0 then evRead else 0) ||| (if ctx.nwrite ≠ 0 then evWrite else 0)
  let nread := if ev.evEvents &&& evRead ≠ 0 then ctx.nread.toNat + 1 else ctx.nread.toNat
  let nwrite := if ev.evEvents &&& evWrite ≠ 0 then ctx.nwrite.toNat + 1 else ctx.nwrite.toNat
  let res := (if ev.evEvents &&& evRead ≠ 0 ∧ nread = 1 then evRead else 0) |||
    (if ev.evEvents &&& evWrite ≠ 0 ∧ nwrite = 1 then evWrite else 0)
  if 0xffff < nread ∨ 0xffff < nwrite then (b, -1)
  else if res ≠ 0 ∧ o.add = false then (b, -1)
  else
    let ctx := { events := ctx.events ++ [p], nread := .ofNat nread, nwrite := .ofNat nwrite }
    let b := { b with io := Function.update b.io fd (some ctx) }
    if res ≠ 0 then ({ b with evsel := b.evsel ++ [⟨fd, old, (ev.evEvents &&& evEt) ||| res⟩] }, 1) else (b, 0)

/-- `evmap_io_add`. -/
def evmapIoAdd (b : EventBase) (fd : Int) (p : Ptr) (o : Outcome) : Except Fault (EventBase × Int) := do
  let ev ← deref b.handlers (some p)
  if fd < 0 then return (b, 0)
  match b.makeSpace fd o with
  | none => return (b, -1)
  | some b =>
    match b.getIoSlot fd o with
    | none => return (b, -1)
    | some (b, ctx) => return b.ioAdd fd p ev ctx o

/-- `event_queue_insert` for the two queues that are not of timers. `none` is the exit of the process. -/
def eventQueueInsert (b : EventBase) (p : Ptr) (queue : Flags) : Except Fault (Option EventBase) := do
  let ev ← deref b.handlers (some p)
  if ev.evFlags &&& queue ≠ 0 then return if queue &&& evlistActive ≠ 0 then some b else none
  let b := if ~~~ev.evFlags &&& evlistInternal ≠ 0 then { b with eventCount := b.eventCount + 1 } else b
  let handlers ← modify b.handlers (some p) ({ · with evFlags := ev.evFlags ||| queue })
  let b := { b with handlers := handlers }
  if queue = evlistInserted then return some { b with eventqueue := b.eventqueue ++ [p] }
  else if queue = evlistActive then
    match b.activequeue[ev.evPri]? with
    | none => throw (.outOfBounds ev.evPri)
    | some q =>
      return some { b with
        eventCountActive := b.eventCountActive + 1
        activequeue := b.activequeue.set ev.evPri (q ++ [p]) }
  else return none

/-- `event_add_internal` with `tv` null. The function does not return a value then, and `none` is
    the abort of its assertion, or an exit of the process. -/
def eventAddInternal (b : EventBase) (p : Ptr) (o : Outcome) : Except Fault (Option EventBase) := do
  let ev ← deref b.handlers (some p)
  if ev.evFlags &&& ~~~evlistAll ≠ 0 then return none
  if ev.evEvents &&& (evRead ||| evWrite ||| evSignal) ≠ 0 ∧ ev.evFlags &&& (evlistInserted ||| evlistActive) = 0 then
    let (b, res) ←
      if ev.evEvents &&& (evRead ||| evWrite) ≠ 0 then b.evmapIoAdd ev.evFd p o else pure (b, o.signal)
    if res ≠ -1 then b.eventQueueInsert p evlistInserted else return some b
  else return some b

/-- An event base with so many priorities. -/
def init (priorities : Nat) : EventBase where
  handlers := fun _ => none
  io := fun _ => none
  nentries := 0
  evsel := []
  eventCount := 0
  eventCountActive := 0
  eventqueue := []
  activequeue := List.replicate priorities []

inductive Event where
  | assign (p : Ptr) (ev : Handler)
  | add (p : Ptr) (o : Outcome)
  | active (p : Ptr)

/-- A new handler is in no queue, has only flags that there are, and a priority of the base. -/
inductive Step : EventBase → Event → EventBase → Prop where
  | assign {b : EventBase} {p : Ptr} {ev : Handler} : b.handlers p = none →
      ev.evFlags &&& (evlistInserted ||| evlistActive) = 0 → ev.evFlags &&& ~~~evlistAll = 0 →
      ev.evPri < b.activequeue.length →
      Step b (.assign p ev) { b with handlers := Function.update b.handlers p (some ev) }
  | add {b b' : EventBase} {p : Ptr} {o : Outcome} : b.eventAddInternal p o = .ok (some b') → Step b (.add p o) b'
  | active {b b' : EventBase} {p : Ptr} : b.eventQueueInsert p evlistActive = .ok (some b') →
      Step b (.active p) b'

end EventBase

end Libevent
