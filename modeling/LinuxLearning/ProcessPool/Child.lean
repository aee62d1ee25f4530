-- SUMMARY: The child of processpool.cpp: run_child as steps, for any class of clients, with its signals, the processes it forks, and its descriptors.
import LinuxLearning.Common.Memory
import LinuxLearning.Common.Run

/-!
# The child of the process pool

A child waits for notifications of its parent, for signals, which the handler writes into a
pipe, and for the sockets of its clients. It keeps an object for each descriptor. Events are
edge-triggered: an arrival sets the event of its descriptor, and `epoll_wait` collects it.
Signals and the ends of other processes come between any two statements.
-/

namespace ProcessPool

open Memory

namespace RunChild

/-- `USER_PER_PROCESS`. -/
def userPerProcess : Nat := 65536

/-- `MAX_EVENT_NUMBER`. -/
def maxEventNumber : Nat := 10000

/-- The size of `signals`. -/
def signalsSize : Nat := 1024

/-- The signals that have the handler. -/
inductive Signal where
  | chld
  | term
  | int
deriving Repr, DecidableEq

/-- The template argument. `process` makes system calls, which are returned with the object.
    Some of them close a descriptor, and some start a process. -/
structure ClientClass where
  Obj : Type
  Call : Type
  /-- What the system calls of one `process` return. -/
  Answers : Type
  init : Obj → Int → Obj
  process : Obj → Answers → Except Fault (Obj × List Call)
  Admits : Obj → Answers → Prop
  closes : Call → Option Int
  forks : Call → Bool

/-- The descriptors that the calls close. -/
def ClientClass.closed (K : ClientClass) (calls : List K.Call) : List Int :=
  calls.filterMap K.closes

/-- An event that `epoll_wait` reports: `data.fd`, and if `EPOLLIN` is among the events. -/
abbrev Event := Nat × Bool

/-- Where the child is. The events are those that it has not come to. -/
inductive Phase where
  /-- Before `epoll_wait`, or in it. -/
  | wait
  | handling (events : List Event)
  /-- Between `recv` and `accept`. -/
  | accepting (events : List Event)
  /-- In the loop over the signals. -/
  | signals (todo : List Signal) (events : List Event)
  /-- Behind the loop. -/
  | left
  | crashed
deriving Repr, DecidableEq

def Phase.events : Phase → List Event
  | .handling events => events
  | .accepting events => events
  | .signals _ events => events
  | _ => []

def Phase.todo : Phase → List Signal
  | .signals todo _ => todo
  | _ => []

/-- A connection that was accepted: its descriptor and the calls made for it. -/
structure Conn (K : ClientClass) where
  fd : Nat
  calls : List K.Call

structure State (K : ClientClass) where
  phase : Phase
  stop : Bool
  users : Nat → K.Obj
  /-- The sockets of clients in the epoll table: which of the connections each is. -/
  table : Nat → Option Nat
  /-- The descriptors with an event that has not been collected. -/
  ready : Nat → Bool
  /-- All connections, in the order they were accepted. -/
  conns : List (Conn K)
  /-- The bytes in the signal pipe. -/
  unread : List Signal
  /-- The processes that clients started and that run. -/
  running : Nat
  /-- Those that have ended and were not waited for. -/
  zombies : Nat
  /-- A `SIGCHLD` has not been delivered. -/
  pending : Bool

variable {K : ClientClass}

def State.init (users : Nat → K.Obj) : State K where
  phase := .wait
  stop := false
  users := users
  table := fun _ => none
  ready := fun _ => false
  conns := []
  unread := []
  running := 0
  zombies := 0
  pending := false

/-- `sig_handler`, with room for `cap` bytes in the pipe. `send` fails if the pipe is full. -/
def State.handler (cap sigfd : Nat) (st : State K) (sig : Signal) : State K :=
  if st.unread.length < cap then
    { st with unread := st.unread ++ [sig], ready := Function.update st.ready sigfd true }
  else st

/-- `accept` has returned `fd`: `addfd`, where data may have arrived before, and `init`. -/
def State.accepted (st : State K) (fd : Nat) (readable : Bool) : State K :=
  { st with
    users := Function.update st.users fd (K.init (st.users fd) fd)
    table := Function.update st.table fd (some st.conns.length)
    ready := Function.update st.ready fd readable
    conns := st.conns ++ [⟨fd, []⟩] }

/-- `process` of the object of `fd` has made the calls and leaves `obj`. -/
def State.processed (st : State K) (fd : Nat) (obj : K.Obj) (calls : List K.Call) : State K :=
  { st with
    users := Function.update st.users fd obj
    table := fun x => if (x : Int) ∈ K.closed calls then none else st.table x
    conns :=
      match st.table fd with
      | some k => st.conns.modify k fun c => { c with calls := c.calls ++ calls }
      | none => st.conns
    running := st.running + calls.countP K.forks }

/-- One turn of the loop over the signals, with `rest` behind it. For `SIGCHLD` it is one call
    of `waitpid`, and the last one finds nothing. -/
def State.onSignal (st : State K) (rest : List Signal) (events : List Event) : Signal → State K
  | .chld =>
    if 0 < st.zombies then { st with zombies := st.zombies - 1 }
    else { st with phase := .signals rest events }
  | .term => { st with phase := .signals rest events, stop := true }
  | .int => { st with phase := .signals rest events, stop := true }

/-- What happens. `raise` is a signal from elsewhere and `deliver` that of a process that has
    ended, with whether the handler finds room in the pipe. -/
inductive Action where
  | notify
  | arrive (fd : Nat)
  | raise (sig : Signal) (sent : Bool)
  | exit
  | deliver (sent : Bool)
  | wait (events : List Event)
  | fail
  | leave
  | done
  | recvPipe (ret : Bool)
  | accept (ret : Option Nat)
  | recvSignals (n : Nat)
  | signal (sig : Signal)
  | process (fd : Nat)
  | skip
deriving Repr, DecidableEq

section Steps

-- the room of the signal pipe, `m_pipefd[1]` and `sig_pipefd[0]`
variable (cap pipefd sigfd : Nat)

/-- The descriptors in the epoll table. -/
def Registered (st : State K) (fd : Nat) : Prop :=
  fd = pipefd ∨ fd = sigfd ∨ st.table fd ≠ none

/-- What `epoll_wait` may report: descriptors with an event, each once, and the signal pipe
    only if there is something to read. -/
structure Reports (st : State K) (events : List Event) : Prop where
  nodup : (events.map Prod.fst).Nodup
  length : events.length ≤ maxEventNumber
  ready : ∀ ev ∈ events, Registered pipefd sigfd st ev.1 ∧ st.ready ev.1 = true
  readable : ∀ b, (sigfd, b) ∈ events → b = true ∧ st.unread ≠ []

/-- A descriptor that `accept` may return is not open. -/
def Unused (st : State K) (fd : Nat) : Prop :=
  ¬ Registered pipefd sigfd st fd

/-- The steps of the child and its surroundings. A signal or an error makes `epoll_wait` return
    without events. -/
inductive Step : State K → Action → State K → Prop where
  | notify {st : State K} : Step st .notify { st with ready := Function.update st.ready pipefd true }
  | arrive {st : State K} {fd : Nat} : st.table fd ≠ none →
      Step st (.arrive fd) { st with ready := Function.update st.ready fd true }
  | raise {st : State K} (sig : Signal) :
      Step st (.raise sig (st.unread.length < cap)) (st.handler cap sigfd sig)
  | exit {st : State K} : 0 < st.running →
      Step st .exit { st with running := st.running - 1, zombies := st.zombies + 1, pending := true }
  | deliver {st : State K} : st.pending = true →
      Step st (.deliver (st.unread.length < cap)) { st.handler cap sigfd .chld with pending := false }
  | wait {st : State K} {events : List Event} : st.phase = .wait → st.stop = false →
      Reports pipefd sigfd st events →
      Step st (.wait events)
        { st with phase := .handling events, ready := fun fd => st.ready fd && fd ∉ events.map Prod.fst }
  | fail {st : State K} : st.phase = .wait → st.stop = false → Step st .fail { st with phase := .left }
  | leave {st : State K} : st.phase = .wait → st.stop = true → Step st .leave { st with phase := .left }
  | done {st : State K} : st.phase = .handling [] → Step st .done { st with phase := .wait }
  /-- With an error other than `EAGAIN`, or at the end of the file, there is no `accept`. -/
  | recvPipe {st : State K} {events : List Event} (ret : Bool) :
      st.phase = .handling ((pipefd, true) :: events) →
      Step st (.recvPipe ret) { st with phase := if ret then .accepting events else .handling events }
  | acceptFails {st : State K} {events : List Event} : st.phase = .accepting events →
      Step st (.accept none) { st with phase := .handling events }
  | accept {st : State K} {events : List Event} {fd : Nat} (readable : Bool) : st.phase = .accepting events →
      Unused pipefd sigfd st fd → fd < userPerProcess →
      Step st (.accept (some fd)) { st.accepted fd readable with phase := .handling events }
  | acceptBeyond {st : State K} {events : List Event} {fd : Nat} : st.phase = .accepting events →
      Unused pipefd sigfd st fd → userPerProcess ≤ fd →
      Step st (.accept (some fd)) { st with phase := .crashed }
  | recvNothing {st : State K} {events : List Event} :
      st.phase = .handling ((sigfd, true) :: events) → sigfd ≠ pipefd → st.unread = [] →
      Step st (.recvSignals 0) { st with phase := .handling events }
  | recvSignals {st : State K} {events : List Event} :
      st.phase = .handling ((sigfd, true) :: events) → sigfd ≠ pipefd → st.unread ≠ [] →
      Step st (.recvSignals st.unread.length)
        { st with phase := .signals (st.unread.take signalsSize) events
                  unread := st.unread.drop signalsSize }
  | signal {st : State K} {sig : Signal} {rest : List Signal} {events : List Event} :
      st.phase = .signals (sig :: rest) events → Step st (.signal sig) (st.onSignal rest events sig)
  | signalsDone {st : State K} {events : List Event} : st.phase = .signals [] events →
      Step st .done { st with phase := .handling events }
  | process {st : State K} {fd : Nat} {events : List Event} {a : K.Answers} {obj : K.Obj}
      {calls : List K.Call} : st.phase = .handling ((fd, true) :: events) → fd ≠ pipefd → fd ≠ sigfd →
      fd < userPerProcess → K.Admits (st.users fd) a → K.process (st.users fd) a = .ok (obj, calls) →
      Step st (.process fd) { st.processed fd obj calls with phase := .handling events }
  | processFaults {st : State K} {fd : Nat} {events : List Event} {a : K.Answers} {e : Fault} :
      st.phase = .handling ((fd, true) :: events) → fd ≠ pipefd → fd ≠ sigfd →
      fd < userPerProcess → K.Admits (st.users fd) a → K.process (st.users fd) a = .error e →
      Step st (.process fd) { st with phase := .crashed }
  | processBeyond {st : State K} {fd : Nat} {events : List Event} :
      st.phase = .handling ((fd, true) :: events) → fd ≠ pipefd → fd ≠ sigfd → userPerProcess ≤ fd →
      Step st (.process fd) { st with phase := .crashed }
  | skip {st : State K} {fd : Nat} {events : List Event} : st.phase = .handling ((fd, false) :: events) →
      Step st .skip { st with phase := .handling events }

end Steps

end RunChild

end ProcessPool
