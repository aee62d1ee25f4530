-- SUMMARY: The web server as a system: descriptors, epoll, the main loop, the work queue and the workers, one statement a step.
import Mathlib.Data.Finset.Basic
import LinuxLearning.HttpConn.Parse
import LinuxLearning.HttpConn.Write

/-!
# The web server as a system

The main loop accepts connections and handles the events of `epoll_wait`, and the
workers of the thread pool run `process()`. Both work on the array `users`, which is
indexed by descriptor number. A step is one statement; `read`, `process_read` and
`process_write` touch the buffers of one object only and are one step each, as is
`append`, which holds the lock of the queue.

The kernel is free in what it returns: `accept` may return any number that is not
open, and `epoll_wait` may report any armed descriptors.
-/

namespace WebServer

open Http Memory

def maxFd : Int := 65536
def maxEventNumber : Nat := 10000

/-- The defaults of the constructor of `threadpool`, with which `main` builds its pool. -/
def defaultThreadNumber : Nat := 8
def defaultMaxRequests : Nat := 10000

/-- What the tests of `main` on `events[i].events` see first: `EPOLLRDHUP`, `EPOLLHUP` or
    `EPOLLERR`, then `EPOLLIN`, then `EPOLLOUT`. -/
inductive EventKind where
  | hup | epollin | epollout
deriving Repr, DecidableEq

inductive Event where
  | listen
  | client (sockfd : Int) (kind : EventKind)
deriving Repr, DecidableEq

/-- The descriptor of a client's event. -/
def Event.sockfd : Event → Option Int
  | .listen => none
  | .client sockfd _ => some sockfd

/-- The kinds a descriptor can be reported with. `EPOLLRDHUP` is always asked for. -/
def Allows : Interest → EventKind → Prop
  | _, .hup => True
  | .epollin, .epollin => True
  | .epollout, .epollout => True
  | _, _ => False

/-- The next statement of `close_conn`, which calls `removefd`. -/
inductive Closing where
  | check
  | epollDel
  | close (fd : Int)
  | reset
  | count
deriving Repr, DecidableEq

/-- The next statement of `init(sockfd, addr)`. -/
inductive Opening where
  | sock | add | count | fields
deriving Repr, DecidableEq

/-- The next statement of a thread, in `main` or in `process`. -/
inductive Stage where
  | accepted
  | refuse
  | init (i : Opening)
  | read
  | append
  | write
  | processRead
  | processWrite (ret : HttpCode)
  | modfd (ev : Interest)
  | closing (c : Closing)
  /-- The last `modfd` of `process`, after a `close_conn`. -/
  | modfdClosed
deriving Repr, DecidableEq

inductive Thread where
  | main
  | worker (w : Nat)
deriving Repr, DecidableEq

structure Server where
  users : Int → HttpConn
  /-- `http_conn::m_user_count`. -/
  userCount : Int
  /-- The open descriptors of clients. -/
  opened : Finset Int
  /-- What is registered in epoll, with its interest unless it is disarmed. -/
  epoll : Int → Option (Option Interest)
  /-- The numbers of the objects in `m_workqueue`. -/
  workqueue : List Int
  /-- The reported events that `main` has not begun to handle. -/
  events : List Event
  /-- The object a thread works on, and its next statement there. -/
  threads : Thread → Option (Int × Stage)
  /-- The objects that were ever initialised. -/
  inited : Int → Bool
  /-- How often `accept` has returned a number. -/
  accepted : Int → Nat
  /-- How often `close` was called on a number. -/
  closed : Int → Nat

namespace Server

/-- The constructor of `http_conn` initialises nothing. -/
def start (users : Int → HttpConn) : Server where
  users := users
  userCount := 0
  opened := ∅
  epoll := fun _ => none
  workqueue := []
  events := []
  threads := fun _ => none
  inited := fun _ => false
  accepted := fun _ => 0
  closed := fun _ => 0

variable (s : Server)

def setThread (t : Thread) (st : Option (Int × Stage)) : Server :=
  { s with threads := Function.update s.threads t st }

def setUser (fd : Int) (c : HttpConn) : Server :=
  { s with users := Function.update s.users fd c }

def setSockfd (fd sockfd : Int) : Server :=
  s.setUser fd { s.users fd with sockfd := sockfd }

@[simp] theorem setThread_self (t : Thread) (st : Option (Int × Stage)) :
    (s.setThread t st).threads t = st :=
  Function.update_self ..

@[simp] theorem setUser_self (fd : Int) (c : HttpConn) : (s.setUser fd c).users fd = c :=
  Function.update_self ..

@[simp] theorem setSockfd_self (fd sockfd : Int) :
    ((s.setSockfd fd sockfd).users fd).sockfd = sockfd := by
  rw [setSockfd, setUser_self]

/-- `epoll_ctl` with `EPOLL_CTL_ADD`, which fails on a descriptor that is not open or is
    registered. -/
def addfd (fd : Int) : Server :=
  { s with
    epoll := if fd ∈ s.opened ∧ s.epoll fd = none then
        Function.update s.epoll fd (some (some .epollin))
      else s.epoll }

/-- `epoll_ctl` with `EPOLL_CTL_MOD`, which fails on a descriptor that is not registered. -/
def modfd (fd : Int) (ev : Interest) : Server :=
  { s with
    epoll := if s.epoll fd = none then s.epoll else Function.update s.epoll fd (some (some ev)) }

def epollDel (fd : Int) : Server :=
  { s with epoll := Function.update s.epoll fd none }

/-- `close` takes the descriptor out of epoll, too. -/
def close (fd : Int) : Server :=
  { s with
    opened := s.opened.erase fd
    epoll := Function.update s.epoll fd none
    closed := Function.update s.closed fd (s.closed fd + 1) }

/-- `accept` returns `fd`. -/
def accept (fd : Int) : Server :=
  { s with
    opened := insert fd s.opened
    accepted := Function.update s.accepted fd (s.accepted fd + 1) }

/-- One statement of `init(sockfd, addr)` with `sockfd = fd`, and the next. -/
def initStep (fd : Int) : Opening → Server × Option Opening
  | .sock => ({ s.setSockfd fd fd with inited := Function.update s.inited fd true }, some .add)
  | .add => (s.addfd fd, some .count)
  | .count => ({ s with userCount := s.userCount + 1 }, some .fields)
  | .fields => (s.setUser fd (s.users fd).init, none)

/-- One statement of `close_conn` on the object `fd`, and the next. `removefd` gets the
    value of `m_sockfd` when it is called. -/
def closeStep (fd : Int) : Closing → Server × Option Closing
  | .check => (s, if (s.users fd).sockfd = -1 then none else some .epollDel)
  | .epollDel => (s.epollDel (s.users fd).sockfd, some (.close (s.users fd).sockfd))
  | .close sockfd => (s.close sockfd, some .reset)
  | .reset => (s.setSockfd fd (-1), some .count)
  | .count => ({ s with userCount := s.userCount - 1 }, none)

end Server

/-- Where a thread goes from `close_conn`: on in it, or back to the caller. -/
def afterClose (fd : Int) : Thread → Option Closing → Option (Int × Stage)
  | _, some c => some (fd, .closing c)
  | .main, none => none
  | .worker _, none => some (fd, .modfdClosed)

/-- What `epoll_wait` may report: descriptors that are armed, each once. -/
def Reports (epoll : Int → Option (Option Interest)) (events : List Event) : Prop :=
  events.length ≤ maxEventNumber ∧ (events.map Event.sockfd).Nodup ∧
    ∀ fd kind, .client fd kind ∈ events → ∃ ev : Interest, epoll fd = some (some ev) ∧ Allows ev kind

/-- `EPOLLONESHOT`: a reported descriptor is disarmed. -/
def disarm (epoll : Int → Option (Option Interest)) (events : List Event) :
    Int → Option (Option Interest) :=
  fun fd => if some fd ∈ events.map Event.sockfd then some none else epoll fd

/-- What `main` does first about an event of a client. -/
def dispatch : EventKind → Stage
  | .hup => .closing .check
  | .epollin => .read
  | .epollout => .write

/-- What a thread does, and what the system calls in it return. -/
inductive Action where
  | wait (events : List Event)
  | acceptFail
  | accept (connfd : Int)
  | next
  | main
  | read (rs : List HttpConn.Recv)
  | write (mem : Int → UInt8) (os : List Writev)
  | take (w : Nat)
  | processRead (w : Nat) (fs : FileSystem)
  | worker (w : Nat)

/-- The steps of a server with a pool of `threadNumber` workers. A fault in `process_read` is
    the end of the run. -/
inductive Step (threadNumber maxRequests : Nat) : Server → Action → Server → Prop where
  | wait {s : Server} (events : List Event) : s.threads .main = none → s.events = [] →
      Reports s.epoll events →
      Step threadNumber maxRequests s (.wait events)
        { s with events := events, epoll := disarm s.epoll events }
  | acceptFail {s : Server} {events : List Event} : s.threads .main = none →
      s.events = .listen :: events →
      Step threadNumber maxRequests s .acceptFail { s with events := events }
  | accept {s : Server} {connfd : Int} {events : List Event} : s.threads .main = none →
      s.events = .listen :: events → 0 ≤ connfd → connfd ∉ s.opened →
      Step threadNumber maxRequests s (.accept connfd)
        { (s.accept connfd).setThread .main (some (connfd, .accepted)) with events := events }
  | checkCount {s : Server} {fd : Int} : s.threads .main = some (fd, .accepted) →
      Step threadNumber maxRequests s .main
        (s.setThread .main (some (fd, if maxFd ≤ s.userCount then .refuse else .init .sock)))
  | refuse {s : Server} {fd : Int} : s.threads .main = some (fd, .refuse) →
      Step threadNumber maxRequests s .main ((s.close fd).setThread .main none)
  | init {s : Server} {fd : Int} {i : Opening} : s.threads .main = some (fd, .init i) →
      Step threadNumber maxRequests s .main
        ((s.initStep fd i).1.setThread .main ((s.initStep fd i).2.map fun i => (fd, .init i)))
  | next {s : Server} {fd : Int} {kind : EventKind} {events : List Event} :
      s.threads .main = none → s.events = .client fd kind :: events →
      Step threadNumber maxRequests s .next
        { s.setThread .main (some (fd, dispatch kind)) with events := events }
  | read {s : Server} {fd : Int} {rs : List HttpConn.Recv} :
      s.threads .main = some (fd, .read) →
      ((s.users fd).sockfd ∈ s.opened ∨ rs = [.error]) →
      Step threadNumber maxRequests s (.read rs)
        ((s.setUser fd ((s.users fd).read rs).1).setThread .main
          (some (fd, if ((s.users fd).read rs).2 then .append else .closing .check)))
  | append {s : Server} {fd : Int} : s.threads .main = some (fd, .append) →
      Step threadNumber maxRequests s .main
        { s.setThread .main none with
          workqueue := if maxRequests < s.workqueue.length then s.workqueue
            else s.workqueue ++ [fd] }
  | write {s : Server} {fd : Int} {mem : Int → UInt8} {os : List Writev} {r : WriteCall} :
      s.threads .main = some (fd, .write) →
      ((s.users fd).sockfd ∈ s.opened ∨ os = [.error]) → (s.users fd).write mem os = some r →
      Step threadNumber maxRequests s (.write mem os)
        (((r.armed.elim s (s.modfd (s.users fd).sockfd)).setUser fd r.conn).setThread .main
          (if r.ret then none else some (fd, .closing .check)))
  | mainClose {s : Server} {fd : Int} {c : Closing} : s.threads .main = some (fd, .closing c) →
      Step threadNumber maxRequests s .main
        ((s.closeStep fd c).1.setThread .main (afterClose fd .main (s.closeStep fd c).2))
  | take {s : Server} {w : Nat} {fd : Int} {queue : List Int} : w < threadNumber →
      s.threads (.worker w) = none → s.workqueue = fd :: queue →
      Step threadNumber maxRequests s (.take w)
        { s.setThread (.worker w) (some (fd, .processRead)) with workqueue := queue }
  | processRead {s : Server} {w : Nat} {fd : Int} {fs : FileSystem} {c : HttpConn}
      {ret : HttpCode} : s.threads (.worker w) = some (fd, .processRead) →
      (s.users fd).processRead fs = .ok (c, ret) →
      Step threadNumber maxRequests s (.processRead w fs)
        ((s.setUser fd c).setThread (.worker w)
          (some (fd, if ret = .noRequest then .modfd .epollin else .processWrite ret)))
  | processWrite {s : Server} {w : Nat} {fd : Int} {ret : HttpCode} :
      s.threads (.worker w) = some (fd, .processWrite ret) →
      Step threadNumber maxRequests s (.worker w)
        ((s.setUser fd ((s.users fd).processWrite ret).1).setThread (.worker w)
          (some (fd, if ((s.users fd).processWrite ret).2 then .modfd .epollout
            else .closing .check)))
  | workerClose {s : Server} {w : Nat} {fd : Int} {c : Closing} :
      s.threads (.worker w) = some (fd, .closing c) →
      Step threadNumber maxRequests s (.worker w)
        ((s.closeStep fd c).1.setThread (.worker w)
          (afterClose fd (.worker w) (s.closeStep fd c).2))
  | modfd {s : Server} {w : Nat} {fd : Int} {ev : Interest} :
      s.threads (.worker w) = some (fd, .modfd ev) →
      Step threadNumber maxRequests s (.worker w)
        ((s.modfd (s.users fd).sockfd ev).setThread (.worker w) none)
  | modfdClosed {s : Server} {w : Nat} {fd : Int} :
      s.threads (.worker w) = some (fd, .modfdClosed) →
      Step threadNumber maxRequests s (.worker w)
        ((s.modfd (s.users fd).sockfd .epollout).setThread (.worker w) none)

end WebServer
