-- SUMMARY: The process pool as a system: the listen queue, the parent, the pipes and the children, with edge-triggered events, as steps.
import LinuxLearning.ProcessPool.RunParent

/-!
# The process pool as a system

A connection arrives in the listen queue and makes an event for the parent. The parent
notifies a child through its pipe, which makes an event for the child, and the child
reads the notification and accepts. All children are alive. Events are edge-triggered:
an arrival sets the event of its descriptor, and `epoll_wait` collects it.
-/

namespace ProcessPool

open Memory

/-- An event that `epoll_wait` reports to a child. What it does for its clients and its
    signals does not matter here. -/
inductive ChildEvent where
  | pipe
  | other
deriving Repr, DecidableEq

/-- A child, with its end of the pipe. -/
structure Child where
  /-- Notifications that have not been read. -/
  unread : Nat
  /-- An event of the pipe has not been collected. -/
  ready : Bool
  /-- The reported events that have not been handled. -/
  events : List ChildEvent
  /-- The child is between `recv` and `accept`. -/
  accepting : Bool
deriving Repr, DecidableEq

def Child.init : Child where
  unread := 0
  ready := false
  events := []
  accepting := false

/-- The parent writes a notification. -/
def Child.notify (c : Child) : Child :=
  { c with unread := c.unread + 1, ready := true }

/-- `recv` of one notification. It fails with `EAGAIN` if there is none, and `accept` is
    called all the same. -/
def Child.recv (c : Child) : Child :=
  { c with unread := c.unread - 1, accepting := true }

structure Pool where
  parent : Parent
  /-- An event of the listening socket has not been collected. -/
  ready : Bool
  /-- The events reported to the parent that it has not handled. -/
  events : List Event
  /-- Connections that have not been accepted. -/
  queue : Nat
  children : Nat → Child

def Pool.init (pids : List Int) : Pool where
  parent := .init pids
  ready := false
  events := []
  queue := 0
  children := fun _ => .init

/-- The notifications among the effects of the parent reach the children. -/
def deliver (children : Nat → Child) : List Effect → Nat → Child
  | [] => children
  | .send i :: effects => deliver (Function.update children i (children i).notify) effects
  | _ :: effects => deliver children effects

/-- A step of a client, of the parent, or of the child in a slot. -/
inductive Action where
  | connect
  | parentWait (events : List Event)
  | parentHandle
  | childWait (i : Nat) (events : List ChildEvent)
  | childHandle (i : Nat)
  | childAccept (i : Nat)
deriving Repr, DecidableEq

/-- What `epoll_wait` reports to the parent: the listening socket exactly if its event is
    set, and events that have nothing to do with connections. -/
def Reports (ready : Bool) (events : List Event) : Prop :=
  events.count .listen = ready.toNat ∧ ∀ ev ∈ events, ev = .listen ∨ ev = .other

def ChildReports (ready : Bool) (events : List ChildEvent) : Prop :=
  events.count .pipe = ready.toNat

/-- The steps of the pool. `accept` takes a connection if there is one. -/
inductive PoolStep (pids : List Int) : Pool → Action → Pool → Prop where
  | connect {s : Pool} : PoolStep pids s .connect { s with queue := s.queue + 1, ready := true }
  | parentWait {s : Pool} (events : List Event) : s.events = [] → s.parent.stop = false →
      Reports s.ready events →
      PoolStep pids s (.parentWait events) { s with events := events, ready := false }
  | parentHandle {s : Pool} {ev : Event} {events : List Event} {parent : Parent}
      {effects : List Effect} {leaves : Bool} : s.events = ev :: events →
      s.parent.handle ev = .ok (parent, effects, leaves) →
      PoolStep pids s .parentHandle { s with
        parent := parent, events := if leaves then [] else events
        children := deliver s.children effects }
  | childWait {s : Pool} {i : Nat} (events : List ChildEvent) : i < pids.length →
      (s.children i).events = [] → (s.children i).accepting = false →
      ChildReports (s.children i).ready events →
      PoolStep pids s (.childWait i events) { s with
        children := Function.update s.children i
          { s.children i with events := events, ready := false } }
  | childHandle {s : Pool} {i : Nat} {ev : ChildEvent} {events : List ChildEvent} : i < pids.length →
      (s.children i).events = ev :: events → (s.children i).accepting = false →
      PoolStep pids s (.childHandle i) { s with
        children := Function.update s.children i
          { (if ev = .pipe then (s.children i).recv else s.children i) with events := events } }
  | childAccept {s : Pool} {i : Nat} : i < pids.length → (s.children i).accepting = true →
      PoolStep pids s (.childAccept i) { s with
        queue := s.queue - 1
        children := Function.update s.children i { s.children i with accepting := false } }

/-- Everybody is blocked in `epoll_wait`, with no event to report. -/
def Blocked (pids : List Int) (s : Pool) : Prop :=
  s.ready = false ∧ s.events = [] ∧ ∀ i, i < pids.length →
    (s.children i).ready = false ∧ (s.children i).events = [] ∧ (s.children i).accepting = false

/-- No connection waits, and no notification is unread. -/
def Served (pids : List Int) (s : Pool) : Prop :=
  s.queue = 0 ∧ ∀ i, i < pids.length → (s.children i).unread = 0

/-- An arrival merges with an event that has not been collected: of a connection with one
    of the listening socket, or of a notification with one of the pipe of its child, which
    is the one at the counter as all are alive. -/
def Merges (s : Pool) : Action → Prop
  | .connect => s.ready = true
  | .parentHandle =>
    s.events.head? = some .listen ∧ (s.children s.parent.subProcessCounter).ready = true
  | _ => False

end ProcessPool
