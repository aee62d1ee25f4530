-- SUMMARY: The server that closes inactive connections: its event handlers and timer handler, and the server as a transition system with a clock.
import LinuxLearning.Common.Run
import LinuxLearning.Timers.SortedRuns

/-!
# The server that closes inactive connections

`Server` holds what `main` of `close_inactive_connection.cpp` works on. Every connection has
a record in `users` and a timer in the sorted list; an event reads or closes a connection,
and a tick closes those whose timers have expired. `System` adds the batch of events that is
being handled, the clock, and when each connection was accepted and last active.
-/

namespace CloseInactive

open Memory Timers Transition

def fdLimit : Nat := 65535
def timeslot : Int := 5
def sigalrm : UInt8 := 14
def sigterm : UInt8 := 15

/-! ## The data of main -/

structure ClientData where
  sockfd : Nat
  timer : Option Ptr

/-- The objects of `main`, and the connections that are open. The record of a descriptor
    has the descriptor as its address. -/
structure Server where
  listenfd : Nat
  pipefd : Nat
  users : Nat → ClientData
  timers : Store UtilTimer
  timerList : SortTimerList
  timeout : Bool
  stopServer : Bool
  isOpen : Nat → Bool

structure Event where
  fd : Nat
  epollIn : Bool

/-- What `recv` returns: some bytes, 0, or an error with `EAGAIN` or without. -/
inductive Recv where
  | data (d : List UInt8)
  | eof
  | eagain
  | error

/-- What the system answers to the calls of a handler: `accept`, `new`, `recv` and `time`. -/
structure Answers where
  connfd : Nat
  timer : Ptr
  recv : Recv
  time : Int

/-- The address of `cb_func`. -/
def cbFuncAddr : Nat := 1

namespace Server

/-! ## The handlers -/

/-- `cb_func`. Closing takes a descriptor out of epoll too. -/
def cbFunc (s : Server) : Option Ptr → Except Fault Server
  | none => throw .nullPointer
  | some fd => return { s with isOpen := Function.update s.isOpen (s.users fd).sockfd false }

/-- The call of a timer's callback. -/
def callback (s : Server) (t : TimerData) : Except Fault Server :=
  if t.cbFunc = cbFuncAddr then s.cbFunc t.userData else throw (.dangling t.cbFunc)

/-- `timer_handler` at time `cur`. The callbacks leave the list alone, so they are run
    behind the loop of `tick`. -/
def timerHandler (n : Nat) (s : Server) (cur : Int) : Except Fault Server := do
  let (timers, timerList, fired) ← SortTimerList.tick n s.timers s.timerList cur
  (fired.map Prod.snd).foldlM callback { s with timers := timers, timerList := timerList }

def handleAccept (n : Nat) (s : Server) (a : Answers) : Except Fault Server := do
  let timer : UtilTimer := ⟨⟨a.time + 3 * timeslot, cbFuncAddr, some a.connfd⟩, none, none⟩
  let timers := Function.update s.timers a.timer (some timer)
  let (timers, timerList) ← SortTimerList.addTimer n timers s.timerList (some a.timer)
  return { s with
    users := Function.update s.users a.connfd ⟨a.connfd, some a.timer⟩
    timers := timers
    timerList := timerList
    isOpen := Function.update s.isOpen a.connfd true }

/-- One iteration over the bytes read from the pipe. -/
def handleSignal (s : Server) (sig : UInt8) : Server :=
  if sig = sigalrm then { s with timeout := true }
  else if sig = sigterm then { s with stopServer := true }
  else s

def handleSignals (s : Server) : Recv → Server
  | .data signals => signals.foldl handleSignal s
  | _ => s

/-- The connection is closed, and its timer deleted. -/
def dropClient (s : Server) (sockfd : Nat) : Except Fault Server := do
  let timer := (s.users sockfd).timer
  let s ← s.cbFunc (some sockfd)
  let (timers, timerList) ← SortTimerList.delTimer s.timers s.timerList timer
  return { s with timers := timers, timerList := timerList }

def handleClient (n : Nat) (s : Server) (sockfd : Nat) (a : Answers) : Except Fault Server := do
  match a.recv with
  | .error | .eof => s.dropClient sockfd
  | .eagain => return s
  | .data _ =>
    let timer := (s.users sockfd).timer
    let timers ← SortTimerList.setExpire s.timers timer (a.time + 3 * timeslot)
    let (timers, timerList) ← SortTimerList.adjustTimer n timers s.timerList timer
    return { s with timers := timers, timerList := timerList }

/-- The body of the loop over the events. -/
def handle (n : Nat) (s : Server) (event : Event) (a : Answers) : Except Fault Server :=
  if event.fd = s.listenfd then s.handleAccept n a
  else if event.fd = s.pipefd ∧ event.epollIn then return s.handleSignals a.recv
  else if event.epollIn then s.handleClient n event.fd a
  else return s

/-- What comes behind the loop. -/
def finish (n : Nat) (s : Server) (cur : Int) : Except Fault Server := do
  if s.timeout then return { ← s.timerHandler n cur with timeout := false }
  else return s

/-- A descriptor that was added to epoll and not closed. -/
def Watched (s : Server) (fd : Nat) : Prop :=
  fd = s.listenfd ∨ fd = s.pipefd ∨ s.isOpen fd

end Server

/-! ## The server in time -/

/-- The server, the events of the batch that are still to be handled (`none` in
    `epoll_wait`), the clock, and for each connection when it was accepted and when it was
    last active: accepted, or read from with a positive result. -/
structure System where
  server : Server
  batch : Option (List Event)
  clock : Int
  acceptedAt : Nat → Int
  activeAt : Nat → Int

namespace System

/-- The server before its first `epoll_wait`. The records are what memory held. -/
def start (listenfd pipefd : Nat) (users : Nat → ClientData) (clock : Int) : System where
  server :=
    { listenfd := listenfd
      pipefd := pipefd
      users := users
      timers := fun _ => none
      timerList := ⟨none, none⟩
      timeout := false
      stopServer := false
      isOpen := fun _ => false }
  batch := none
  clock := clock
  acceptedAt _ := clock
  activeAt _ := clock

/-- What an event and the answers to it mean for the times: a connection is accepted, or `recv`
    on one returns bytes. -/
def record (s : System) (event : Event) (a : Answers) : System :=
  if event.fd = s.server.listenfd then
    { s with
      acceptedAt := Function.update s.acceptedAt a.connfd a.time
      activeAt := Function.update s.activeAt a.connfd a.time }
  else if event.fd ≠ s.server.pipefd ∧ event.epollIn then
    match a.recv with
    | .data _ => { s with activeAt := Function.update s.activeAt event.fd a.time }
    | _ => s
  else s

/-- `accept` returns a descriptor that is not open, `new` an address that is not in use,
    and time does not go back. -/
structure Possible (s : System) (event : Event) (a : Answers) : Prop where
  accept : event.fd = s.server.listenfd → a.connfd < fdLimit ∧ a.connfd ≠ s.server.listenfd ∧
    a.connfd ≠ s.server.pipefd ∧ s.server.isOpen a.connfd = false
  new : event.fd = s.server.listenfd → s.server.timers a.timer = none
  time : s.clock ≤ a.time

inductive Action where
  | wait (events : List Event)
  | handle (a : Answers)
  | finish (cur : Int)

/-- `epoll_wait` reports each open descriptor at most once, and no closed one. -/
inductive Step : System → Action → System → Prop where
  | wait {s events} : s.batch = none → s.server.stopServer = false → (events.map Event.fd).Nodup →
      (∀ event ∈ events, s.server.Watched event.fd) → Step s (.wait events) { s with batch := some events }
  | handle {s event events a r} : s.batch = some (event :: events) → s.Possible event a →
      Yields (fun n => s.server.handle n event a) r →
      Step s (.handle a) { s.record event a with server := r, batch := some events, clock := a.time }
  | finish {s cur r} : s.batch = some [] → s.clock ≤ cur → Yields (fun n => s.server.finish n cur) r →
      Step s (.finish cur) { s with server := r, batch := none, clock := cur }

end System

end CloseInactive
