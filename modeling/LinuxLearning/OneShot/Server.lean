-- SUMMARY: epoll_one_shot: the main loop, its one struct for new workers, and the workers, access by access.
import LinuxLearning.Common.Run
import Mathlib.Logic.Function.Basic

/-!
# One worker for each event

The main loop hands every event to a thread of its own, and passes the socket in a struct on
its stack. Each access to the struct is a step, so the loop may fill it for the next event
before a thread has read it.
-/

namespace OneShot

/-- A socket in the epoll set. An event disarms it until it is reset. -/
inductive Interest where
  | armed
  | disarmed
deriving Repr, DecidableEq

/-- `struct fds`. -/
structure Fds where
  epollfd : Int
  sockfd : Int

/-- An element of `events`: its descriptor, and whether `EPOLLIN` is set. -/
structure EpollEvent where
  fd : Int
  epollin : Bool
deriving DecidableEq

/-- What a call of `recv` comes to: data, `EAGAIN`, another error, or `0`. -/
inductive Recv where
  | data
  | again
  | error
  | eof
deriving Repr, DecidableEq

/-- Where the main loop is. With a socket it is at the first or second member of the struct, or
    at `pthread_create`. -/
inductive Main where
  | loop
  | fillEpollfd (sockfd : Int)
  | fillSockfd (sockfd : Int)
  | create (sockfd : Int)

/-- The socket whose event the main loop is handling. -/
def Main.sockfd : Main → Option Int
  | .loop => none
  | .fillEpollfd sockfd | .fillSockfd sockfd | .create sockfd => some sockfd

/-- Where a worker is, with its local variables. -/
inductive Phase where
  | readSockfd
  | readEpollfd (sockfd : Int)
  | recv (sockfd epollfd : Int)
  | close (sockfd : Int)
  | reset (sockfd epollfd : Int)
  | done

/-- The socket that a worker operates on. -/
def Phase.sockfd : Phase → Option Int
  | .readSockfd | .done => none
  | .readEpollfd sockfd | .recv sockfd _ | .close sockfd | .reset sockfd _ => some sockfd

/-- A worker, with the socket whose event it was created for, and whether the struct has been
    filled again since. -/
structure Worker where
  origin : Int
  late : Bool
  phase : Phase

structure System where
  listenfd : Int
  epollfd : Int
  sockets : Int → Option Interest
  /-- What is left of `events`. -/
  events : List EpollEvent
  main : Main
  /-- `fds_for_new_worker`. -/
  cell : Fds
  workers : Nat → Option Worker

/-- A step of the main loop, or of a worker. -/
inductive Label where
  | epollWait (events : List EpollEvent)
  | accept (connfd : Option Int)
  | take
  | skip
  | fillEpollfd
  | fillSockfd
  | create (i : Option Nat)
  | readSockfd (i : Nat)
  | readEpollfd (i : Nat)
  | recv (i : Nat) (r : Recv)
  | close (i : Nat)
  | reset (i : Nat)

namespace System

-- ---------------------------------------------------------------------------
-- The main loop
-- ---------------------------------------------------------------------------

/-- `epoll_wait` reports these events and disarms their sockets. -/
def report (s : System) (events : List EpollEvent) : System :=
  { s with
    events := events
    sockets := fun fd => if fd ∈ events.map EpollEvent.fd then (s.sockets fd).map fun _ => .disarmed else s.sockets fd }

/-- `addfd(epollfd, connfd, true)`. -/
def addfd (s : System) (connfd : Int) : System :=
  { s with sockets := Function.update s.sockets connfd (some .armed) }

/-- `fds_for_new_worker.sockfd = sockfd`. -/
def fillSockfd (s : System) (sockfd : Int) : System :=
  { s with
    main := .create sockfd
    cell := { s.cell with sockfd := sockfd }
    workers := fun i => (s.workers i).map fun w => { w with late := true } }

-- ---------------------------------------------------------------------------
-- The workers
-- ---------------------------------------------------------------------------

def setWorker (s : System) (i : Nat) (w : Worker) : System :=
  { s with workers := Function.update s.workers i (some w) }

/-- The worker goes on at another place. -/
def goto (s : System) (i : Nat) (w : Worker) (phase : Phase) : System :=
  s.setWorker i { w with phase := phase }

/-- Where the loop of `worker` goes on after `recv`. -/
def afterRecv (sockfd epollfd : Int) : Recv → Phase
  | .data | .error => .recv sockfd epollfd
  | .eof => .close sockfd
  | .again => .reset sockfd epollfd

/-- `close(sockfd)`, which takes the socket out of the epoll set. -/
def closeSocket (s : System) (sockfd : Int) : System :=
  { s with sockets := Function.update s.sockets sockfd none }

/-- `reset_oneshot`. The descriptor that `epoll_ctl` lacks is the argument `fd`. -/
def resetOneshot (s : System) (epollfd fd : Int) : System :=
  if epollfd = s.epollfd then
    { s with sockets := Function.update s.sockets fd ((s.sockets fd).map fun _ => .armed) }
  else s

-- ---------------------------------------------------------------------------
-- Steps
-- ---------------------------------------------------------------------------

inductive Step : System → Label → System → Prop where
  | epollWait {s : System} {events : List EpollEvent} : s.main = .loop → s.events = [] →
      (events.map EpollEvent.fd).Nodup →
      (∀ ev ∈ events, ev.fd ≠ s.listenfd → s.sockets ev.fd = some .armed) →
      Step s (.epollWait events) (s.report events)
  | accept {s : System} {ev : EpollEvent} {rest : List EpollEvent} {connfd : Int} : s.main = .loop →
      s.events = ev :: rest → ev.fd = s.listenfd → s.sockets connfd = none →
      Step s (.accept (some connfd)) ({ s with events := rest }.addfd connfd)
  | acceptFails {s : System} {ev : EpollEvent} {rest : List EpollEvent} : s.main = .loop →
      s.events = ev :: rest → ev.fd = s.listenfd → Step s (.accept none) { s with events := rest }
  | take {s : System} {ev : EpollEvent} {rest : List EpollEvent} : s.main = .loop → s.events = ev :: rest →
      ev.fd ≠ s.listenfd → ev.epollin = true → Step s .take { s with events := rest, main := .fillEpollfd ev.fd }
  | skip {s : System} {ev : EpollEvent} {rest : List EpollEvent} : s.main = .loop → s.events = ev :: rest →
      ev.fd ≠ s.listenfd → ev.epollin = false → Step s .skip { s with events := rest }
  | fillEpollfd {s : System} {sockfd : Int} : s.main = .fillEpollfd sockfd →
      Step s .fillEpollfd { s with main := .fillSockfd sockfd, cell := { s.cell with epollfd := s.epollfd } }
  | fillSockfd {s : System} {sockfd : Int} : s.main = .fillSockfd sockfd → Step s .fillSockfd (s.fillSockfd sockfd)
  | create {s : System} {sockfd : Int} {i : Nat} : s.main = .create sockfd → s.workers i = none →
      Step s (.create (some i)) ({ s with main := .loop }.setWorker i ⟨sockfd, false, .readSockfd⟩)
  | createFails {s : System} {sockfd : Int} : s.main = .create sockfd → Step s (.create none) { s with main := .loop }
  | readSockfd {s : System} {i : Nat} {w : Worker} : s.workers i = some w → w.phase = .readSockfd →
      Step s (.readSockfd i) (s.goto i w (.readEpollfd s.cell.sockfd))
  | readEpollfd {s : System} {i : Nat} {w : Worker} {sockfd : Int} : s.workers i = some w →
      w.phase = .readEpollfd sockfd → Step s (.readEpollfd i) (s.goto i w (.recv sockfd s.cell.epollfd))
  | recv {s : System} {i : Nat} {w : Worker} {sockfd epollfd : Int} (r : Recv) : s.workers i = some w →
      w.phase = .recv sockfd epollfd → Step s (.recv i r) (s.goto i w (afterRecv sockfd epollfd r))
  | close {s : System} {i : Nat} {w : Worker} {sockfd : Int} : s.workers i = some w → w.phase = .close sockfd →
      Step s (.close i) ((s.closeSocket sockfd).goto i w .done)
  | reset {s : System} {i : Nat} {w : Worker} {sockfd epollfd : Int} : s.workers i = some w →
      w.phase = .reset sockfd epollfd → Step s (.reset i) ((s.resetOneshot epollfd sockfd).goto i w .done)

/-- The main loop before its first event. -/
def start (listenfd epollfd : Int) (cell : Fds) : System where
  listenfd := listenfd
  epollfd := epollfd
  sockets := fun _ => none
  events := []
  main := .loop
  cell := cell
  workers := fun _ => none

end System

end OneShot
