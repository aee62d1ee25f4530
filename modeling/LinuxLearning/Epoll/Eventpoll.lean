-- SUMMARY: The eventpoll of the kernel: its items, the ready list and the overflow chain, and the threads in epoll_ctl, epoll_wait and the wake-up callbacks.
import LinuxLearning.Common.Memory
import LinuxLearning.Common.Run

/-!
# The eventpoll

What happens under `ep->lock` is one step. Between such sections the callbacks of files run,
threads enter and leave `epoll_wait`, and one thread at a time holds `ep->mtx`: it inserts an
item, or it takes the ready list and hands events to user space. The items in memory are in a
store, and `epi->next` links those that became ready during such a scan.
-/

namespace Epoll

open Memory Transition

/-- `epoll_event.events`, and what a file is polled for. -/
abbrev Events := BitVec 32

def pollErr : Events := .twoPow 32 3
def pollHup : Events := .twoPow 32 4
def epollOneshot : Events := .twoPow 32 30
def epollEt : Events := .twoPow 32 31

/-- `EP_PRIVATE_BITS`. -/
def privateBits : Events := epollOneshot ||| epollEt

def eintr : Int := 4
def efault : Int := 14

structure EpollEvent where
  events : Events
  data : UInt64
deriving Repr, DecidableEq

/-- A pointer that may be `EP_UNACTIVE_PTR`. -/
inductive Link where
  | unactive
  | ptr (x : Option Ptr)
deriving Repr, DecidableEq

structure EpollFilefd (φ : Type) where
  file : φ
  fd : Int
deriving Repr, DecidableEq

/-- `struct epitem`; `pwqlist` is the number of its wait queue entries. -/
structure Epitem (φ : Type) where
  next : Link
  ffd : EpollFilefd φ
  nwait : Int
  pwqlist : Nat
  event : EpollEvent
deriving Repr, DecidableEq

/-- `struct eventpoll`, with the items in memory, and with `txlist`, the list of the scan. -/
structure Eventpoll (φ : Type) where
  items : Store (Epitem φ)
  rbr : EpollFilefd φ → Option Ptr
  rdllist : List Ptr
  ovflist : Link
  txlist : List Ptr

namespace Eventpoll

variable {φ : Type}

/-- `ep_alloc`. -/
def alloc : Eventpoll φ where
  items := fun _ => none
  rbr := fun _ => none
  rdllist := []
  ovflist := .unactive
  txlist := []

/-- `ep_is_linked(&epi->rdllink)`. -/
def IsLinked (e : Eventpoll φ) (epi : Ptr) : Prop :=
  epi ∈ e.rdllist ∨ epi ∈ e.txlist

instance (e : Eventpoll φ) (epi : Ptr) : Decidable (e.IsLinked epi) :=
  inferInstanceAs (Decidable (_ ∨ _))

/-- `list_add_tail(&epi->rdllink, &ep->rdllist)`, unless the item is linked. -/
def addReady (e : Eventpoll φ) (epi : Ptr) : Eventpoll φ :=
  if e.IsLinked epi then e else { e with rdllist := e.rdllist ++ [epi] }

/-- `ep_poll_callback`, and whether it gets to the wake-up. -/
def pollCallback (e : Eventpoll φ) (epi : Ptr) (key : Events) : Except Fault (Eventpoll φ × Bool) := do
  let v ← deref e.items (some epi)
  if v.event.events &&& ~~~privateBits = 0 then return (e, false)
  else if key ≠ 0 ∧ key &&& v.event.events = 0 then return (e, false)
  else if e.ovflist ≠ .unactive then
    if v.next = .unactive then
      let items ← modify e.items (some epi) ({ · with next := e.ovflist })
      return ({ e with items := items, ovflist := .ptr (some epi) }, false)
    else return (e, false)
  else return (e.addReady epi, true)

/-- `ep_ptable_queue_proc`, which may fail to allocate a wait queue entry. -/
def ptableQueueProc (e : Eventpoll φ) (epi : Ptr) (allocated : Bool) : Except Fault (Eventpoll φ) := do
  let items ← modify e.items (some epi) fun v =>
    if 0 ≤ v.nwait ∧ allocated = true then { v with nwait := v.nwait + 1, pwqlist := v.pwqlist + 1 }
    else { v with nwait := -1 }
  return { e with items := items }

/-- `ep_insert` up to the poll of the file. -/
def insertItem (e : Eventpoll φ) (epi : Ptr) (ffd : EpollFilefd φ) (event : EpollEvent) : Eventpoll φ :=
  { e with items := Function.update e.items epi (some ⟨.unactive, ffd, 0, 0, event⟩) }

/-- `ep_insert` from `ep_rbtree_insert` on, and whether it gets to the wake-up. -/
def insertReady [DecidableEq φ] (e : Eventpoll φ) (epi : Ptr) (revents : Events) :
    Except Fault (Eventpoll φ × Bool) := do
  let v ← deref e.items (some epi)
  let e := { e with rbr := Function.update e.rbr v.ffd (some epi) }
  if revents &&& v.event.events ≠ 0 ∧ ¬ e.IsLinked epi then return (e.addReady epi, true)
  else return (e, false)

/-- `ep_insert` from `error_unregister` on, behind `ep_unregister_pollwait`. -/
def insertFree (e : Eventpoll φ) (epi : Ptr) : Except Fault (Eventpoll φ) := do
  let items ← free e.items (some epi)
  return { e with items := items, rdllist := e.rdllist.erase epi }

/-- `ep_scan_ready_list` up to the call of `sproc`. -/
def scanSplice (e : Eventpoll φ) : Eventpoll φ :=
  { e with txlist := e.rdllist, rdllist := [], ovflist := .ptr none }

/-- The loop of `ep_scan_ready_list` over `ovflist`, from `nepi` on. -/
def scanLoop (n : Nat) (e : Eventpoll φ) (nepi : Link) : Except Fault (Eventpoll φ) :=
  match n with
  | 0 => .error .outOfFuel
  | n + 1 =>
    match nepi with
    | .unactive => .error (.outOfBounds (-1))
    | .ptr none => return e
    | .ptr (some epi) => do
      let e := e.addReady epi
      let v ← deref e.items (some epi)
      let items ← modify e.items (some epi) ({ · with next := .unactive })
      scanLoop n { e with items := items } v.next

/-- `ep_scan_ready_list` behind the call of `sproc`. -/
def scanRequeue (n : Nat) (e : Eventpoll φ) : Except Fault (Eventpoll φ) := do
  let e ← scanLoop n e e.ovflist
  return { e with ovflist := .unactive, rdllist := e.txlist ++ e.rdllist, txlist := [] }

/-- `ep_send_events_proc` behind a successful copy of an event. -/
def sendPut (e : Eventpoll φ) (epi : Ptr) : Except Fault (Eventpoll φ) := do
  let v ← deref e.items (some epi)
  if v.event.events &&& epollOneshot ≠ 0 then
    let items ← modify e.items (some epi) fun v =>
      { v with event := { v.event with events := v.event.events &&& privateBits } }
    return { e with items := items }
  else if v.event.events &&& epollEt = 0 then return { e with rdllist := e.rdllist ++ [epi] }
  else return e

end Eventpoll

-- ---------------------------------------------------------------------------
-- Threads
-- ---------------------------------------------------------------------------

/-- `jtimeout`; `none` is `MAX_SCHEDULE_TIMEOUT`. -/
abbrev Jiffies := Option Nat

/-- What `schedule_timeout` may leave. -/
def Jiffies.Left : Jiffies → Jiffies → Prop
  | none, j => j = none
  | some k, j => ∃ l, j = some l ∧ l ≤ k

/-- Where a thread is with a call of `epoll_wait`: at `retry`, in `ep->wq` asleep or woken up, or
    in `ep_send_events`, waiting for `ep->mtx` or with it. -/
inductive Thread where
  | returned (res : Int)
  | retry (maxevents : Nat) (jtimeout : Jiffies)
  | asleep (maxevents : Nat) (jtimeout : Jiffies)
  | woken (maxevents : Nat) (jtimeout : Jiffies)
  | send (maxevents : Nat) (jtimeout : Jiffies)
  | scanning (maxevents : Nat) (jtimeout : Jiffies)
deriving Repr, DecidableEq

/-- `ep_poll` from a lock of `ep->lock` to the next unlock. -/
def epPoll {φ : Type} (e : Eventpoll φ) (maxevents : Nat) (jtimeout : Jiffies) (signal : Bool) : Thread :=
  if e.rdllist ≠ [] ∨ jtimeout = some 0 then
    if e.rdllist ≠ [] ∨ e.ovflist ≠ .unactive then .send maxevents jtimeout else .returned 0
  else if signal then .returned (-eintr)
  else .asleep maxevents jtimeout

/-- `ep_poll` behind `ep_send_events`. -/
def epPollSent (res : Int) (maxevents : Nat) (jtimeout : Jiffies) : Thread :=
  if res = 0 ∧ jtimeout ≠ some 0 then .retry maxevents jtimeout else .returned res

/-- Where the thread in `ep_insert` is: at the poll of the file, behind it, or behind
    `ep_unregister_pollwait`. -/
inductive Insert where
  | poll
  | polled (revents : Events)
  | unregistered
deriving Repr, DecidableEq

/-- Where the thread in `ep_send_events_proc` is: at the loop, at the poll of the item that it
    has taken, at the copy of the events, or behind the loop. -/
inductive Scan where
  | loop
  | poll (epi : Ptr)
  | put (epi : Ptr) (revents : Events)
  | done (res : Int)
deriving Repr, DecidableEq

/-- `ep_send_events_proc` behind the poll. -/
def polled (epi : Ptr) (revents : Events) : Scan :=
  if revents ≠ 0 then .put epi revents else .loop

/-- Who holds `ep->mtx`; a scan with the events that it has copied to user space. -/
inductive Mtx (τ : Type) where
  | free
  | insert (epi : Ptr) (phase : Insert)
  | scan (t : τ) (sent : List EpollEvent) (phase : Scan)
deriving Repr, DecidableEq

/-- The eventpoll, what its files are ready for, the callbacks of its items that are under way,
    and the threads. -/
structure System (φ τ : Type) where
  ep : Eventpoll φ
  files : φ → Events
  calls : Ptr → List Events
  mtx : Mtx τ
  threads : τ → Thread

inductive Event (φ τ : Type) where
  | device (f : φ) (bits key : Events)
  | consume (f : φ) (bits : Events)
  | callback (epi : Ptr) (key : Events)
  | insert (epi : Ptr) (ffd : EpollFilefd φ) (event : EpollEvent)
  | queueProc (allocated : Bool)
  | insertPoll
  | insertReady (epi : Ptr)
  | unregister
  | insertFree (epi : Ptr)
  | wait (t : τ) (maxevents : Nat) (jtimeout : Jiffies)
  | look (t : τ) (signal : Bool)
  | wakeUp (t : τ)
  | splice (t : τ)
  | next
  | poll (epi : Ptr)
  | put (epi : Ptr) (revents : Events)
  | fault (epi : Ptr)
  | requeue

namespace System

variable {φ τ : Type} [DecidableEq φ] [DecidableEq τ]

/-- `wake_up_locked(&ep->wq)` wakes up one thread, if there is one asleep. -/
inductive WakeUp (threads : τ → Thread) : (τ → Thread) → Prop where
  | none : (∀ t m j, threads t ≠ .asleep m j) → WakeUp threads threads
  | one {t : τ} {m : Nat} {j j' : Jiffies} : threads t = .asleep m j → j.Left j' →
      WakeUp threads (Function.update threads t (.woken m j'))

/-- The wake-up of a section that may get to it. -/
def WakeUpIf (wakes : Bool) (threads threads' : τ → Thread) : Prop :=
  if wakes = true then WakeUp threads threads' else threads' = threads

/-- The item has an entry in the wait queue of the file. -/
def Hooked (e : Eventpoll φ) (f : φ) (epi : Ptr) : Prop :=
  ∃ v, e.items epi = some v ∧ v.ffd.file = f ∧ 0 < v.pwqlist

instance (e : Eventpoll φ) (f : φ) (epi : Ptr) : Decidable (Hooked e f epi) :=
  match h : e.items epi with
  | none => .isFalse (by simp [Hooked, h])
  | some v => decidable_of_iff (v.ffd.file = f ∧ 0 < v.pwqlist) (by simp [Hooked, h])

/-- The callbacks that a file calls when it wakes up its wait queue. -/
def wakeFile (s : System φ τ) (f : φ) (key : Events) : Ptr → List Events :=
  fun epi => if Hooked s.ep f epi then s.calls epi ++ [key] else s.calls epi

/-- `event` as `epoll_ctl` passes it to `ep_insert`. -/
def ctlEvent (event : EpollEvent) : EpollEvent :=
  { event with events := event.events ||| (pollErr ||| pollHup) }

/-- A file that becomes ready wakes up its wait queue with these events, with more, or with no
    key. It is never ready for a private bit. -/
inductive Step : System φ τ → Event φ τ → System φ τ → Prop where
  | device {s : System φ τ} {f : φ} {bits key : Events} : bits &&& privateBits = 0 →
      key = 0 ∨ key &&& bits = bits →
      Step s (.device f bits key)
        { s with files := Function.update s.files f (s.files f ||| bits), calls := s.wakeFile f key }
  | consume {s : System φ τ} {f : φ} {bits : Events} :
      Step s (.consume f bits) { s with files := Function.update s.files f (s.files f &&& ~~~bits) }
  | callback {s : System φ τ} {epi : Ptr} {key : Events} {e : Eventpoll φ} {wakes : Bool}
      {threads : τ → Thread} : key ∈ s.calls epi → s.ep.pollCallback epi key = .ok (e, wakes) →
      WakeUpIf wakes s.threads threads →
      Step s (.callback epi key)
        { s with ep := e, calls := Function.update s.calls epi ((s.calls epi).erase key), threads := threads }
  | insert {s : System φ τ} {epi : Ptr} {ffd : EpollFilefd φ} {event : EpollEvent} : s.mtx = .free →
      s.ep.rbr ffd = none → s.ep.items epi = none →
      Step s (.insert epi ffd event)
        { s with ep := s.ep.insertItem epi ffd (ctlEvent event), mtx := .insert epi .poll }
  | queueProc {s : System φ τ} {epi : Ptr} {allocated : Bool} {e : Eventpoll φ} : s.mtx = .insert epi .poll →
      s.ep.ptableQueueProc epi allocated = .ok e → Step s (.queueProc allocated) { s with ep := e }
  | insertPoll {s : System φ τ} {epi : Ptr} {v : Epitem φ} : s.mtx = .insert epi .poll →
      s.ep.items epi = some v →
      Step s .insertPoll { s with mtx := .insert epi (.polled (s.files v.ffd.file)) }
  | insertReady {s : System φ τ} {epi : Ptr} {revents : Events} {v : Epitem φ} {e : Eventpoll φ} {wakes : Bool}
      {threads : τ → Thread} : s.mtx = .insert epi (.polled revents) → s.ep.items epi = some v → 0 ≤ v.nwait →
      s.ep.insertReady epi revents = .ok (e, wakes) → WakeUpIf wakes s.threads threads →
      Step s (.insertReady epi) { s with ep := e, mtx := .free, threads := threads }
  | unregister {s : System φ τ} {epi : Ptr} {revents : Events} {v : Epitem φ} :
      s.mtx = .insert epi (.polled revents) → s.ep.items epi = some v → v.nwait < 0 →
      Step s .unregister
        { s with
          ep := { s.ep with items := Function.update s.ep.items epi (some { v with pwqlist := 0 }) }
          calls := Function.update s.calls epi []
          mtx := .insert epi .unregistered }
  | insertFree {s : System φ τ} {epi : Ptr} {e : Eventpoll φ} : s.mtx = .insert epi .unregistered →
      s.ep.insertFree epi = .ok e → Step s (.insertFree epi) { s with ep := e, mtx := .free }
  | wait {s : System φ τ} {t : τ} {m : Nat} {j : Jiffies} {res : Int} : s.threads t = .returned res → 0 < m →
      Step s (.wait t m j) { s with threads := Function.update s.threads t (.retry m j) }
  | look {s : System φ τ} {t : τ} {m : Nat} {j : Jiffies} {signal : Bool} :
      s.threads t = .retry m j ∨ s.threads t = .woken m j →
      Step s (.look t signal) { s with threads := Function.update s.threads t (epPoll s.ep m j signal) }
  | wakeUp {s : System φ τ} {t : τ} {m : Nat} {j j' : Jiffies} : s.threads t = .asleep m j → j.Left j' →
      Step s (.wakeUp t) { s with threads := Function.update s.threads t (.woken m j') }
  | splice {s : System φ τ} {t : τ} {m : Nat} {j : Jiffies} : s.threads t = .send m j → s.mtx = .free →
      Step s (.splice t)
        { s with
          ep := s.ep.scanSplice
          mtx := .scan t [] .loop
          threads := Function.update s.threads t (.scanning m j) }
  | take {s : System φ τ} {t : τ} {sent : List EpollEvent} {m : Nat} {j : Jiffies} {epi : Ptr} {rest : List Ptr} :
      s.mtx = .scan t sent .loop → s.threads t = .scanning m j → s.ep.txlist = epi :: rest → sent.length < m →
      Step s .next { s with ep := { s.ep with txlist := rest }, mtx := .scan t sent (.poll epi) }
  | stop {s : System φ τ} {t : τ} {sent : List EpollEvent} {m : Nat} {j : Jiffies} :
      s.mtx = .scan t sent .loop → s.threads t = .scanning m j → s.ep.txlist = [] ∨ m ≤ sent.length →
      Step s .next { s with mtx := .scan t sent (.done sent.length) }
  | poll {s : System φ τ} {t : τ} {sent : List EpollEvent} {epi : Ptr} {v : Epitem φ} :
      s.mtx = .scan t sent (.poll epi) → s.ep.items epi = some v →
      Step s (.poll epi) { s with mtx := .scan t sent (polled epi (s.files v.ffd.file &&& v.event.events)) }
  | put {s : System φ τ} {t : τ} {sent : List EpollEvent} {epi : Ptr} {revents : Events} {v : Epitem φ}
      {e : Eventpoll φ} : s.mtx = .scan t sent (.put epi revents) → s.ep.items epi = some v →
      s.ep.sendPut epi = .ok e →
      Step s (.put epi revents) { s with ep := e, mtx := .scan t (sent ++ [⟨revents, v.event.data⟩]) .loop }
  | fault {s : System φ τ} {t : τ} {sent : List EpollEvent} {epi : Ptr} {revents : Events} :
      s.mtx = .scan t sent (.put epi revents) →
      Step s (.fault epi)
        { s with
          ep := { s.ep with txlist := epi :: s.ep.txlist }
          mtx := .scan t sent (.done (if sent.length ≠ 0 then sent.length else -efault)) }
  | requeue {s : System φ τ} {t : τ} {sent : List EpollEvent} {res : Int} {m : Nat} {j : Jiffies} {e : Eventpoll φ}
      {threads : τ → Thread} : s.mtx = .scan t sent (.done res) → s.threads t = .scanning m j →
      Yields (fun n => s.ep.scanRequeue n) e → WakeUpIf (!e.rdllist.isEmpty) s.threads threads →
      Step s .requeue
        { s with ep := e, mtx := .free, threads := Function.update threads t (epPollSent res m j) }

/-- A new eventpoll, files that are not ready, and threads that are not in `epoll_wait`. -/
def start : System φ τ where
  ep := .alloc
  files := fun _ => 0
  calls := fun _ => []
  mtx := .free
  threads := fun _ => .returned 0

end System

end Epoll
