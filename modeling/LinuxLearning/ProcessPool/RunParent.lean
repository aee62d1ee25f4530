-- SUMMARY: The parent of processpool.cpp: the round-robin search, the handling of each event, and its event loop as steps.
import LinuxLearning.Common.Memory

/-!
# The parent of the process pool

Handling an event changes the slots and the stop flag, and issues system calls, which
are returned as effects in their order. A slot's pipe end is named by the slot, and
what `waitpid` returns comes with the signal that it is called for.
-/

namespace ProcessPool

open Memory

/-- A slot of `m_sub_process`. -/
structure Process where
  pid : Int
deriving Repr, DecidableEq

structure Parent where
  subProcess : List Process
  subProcessCounter : Nat
  stop : Bool
deriving Repr, DecidableEq

/-- The parent as the constructor and the head of `run_parent` leave it, with the
    children that were forked. -/
def Parent.init (pids : List Int) : Parent where
  subProcess := pids.map Process.mk
  subProcessCounter := 0
  stop := false

/-- The system calls that matter to the children. `send` and `close` are on the
    `m_pipefd[0]` of a slot, and `reap` is a return of `waitpid`. -/
inductive Effect where
  | send (i : Nat)
  | close (i : Nat)
  | kill (pid : Int)
  | reap (pid : Int)
deriving Repr, DecidableEq

/-- A signal byte. With `SIGCHLD` come the results of the `waitpid` calls that it causes,
    up to the first that is not positive. -/
inductive Signal where
  | chld (pids : List Int)
  | term
  | int
  | other
deriving Repr, DecidableEq

/-- An event that `epoll_wait` reports to the parent, with the bytes that `recv` returns. -/
inductive Event where
  | listen
  | signals (received : List Signal)
  | other
deriving Repr, DecidableEq

namespace Parent

/-- `m_sub_process[i]`. -/
def slot (sub : List Process) (i : Nat) : Except Fault Process :=
  match sub[i]? with
  | some p => return p
  | none => throw (.outOfBounds i)

/-- The do-while loop of the round-robin search. -/
def searchLoop (sub : List Process) (counter : Nat) : Nat → Nat → Except Fault Nat
  | 0, _ => throw .outOfFuel
  | n + 1, i => do
    if (← slot sub i).pid ≠ -1 then return i
    else
      let i := (i + 1) % sub.length
      if i ≠ counter then searchLoop sub counter n i else return i

/-- An event of `m_listenfd`. The result tells if the event loop is left. -/
def onListen (st : Parent) : Except Fault (Parent × List Effect × Bool) := do
  let i ← searchLoop st.subProcess st.subProcessCounter st.subProcess.length st.subProcessCounter
  if (← slot st.subProcess i).pid = -1 then
    return ({ st with stop := true }, [], true)
  else
    return ({ st with subProcessCounter := (i + 1) % st.subProcess.length }, [.send i], false)

/-- The loop over the slots for a child that `waitpid` has returned, from slot `i` on. -/
def joinLoop (pid : Int) : Nat → List Process → List Process × List Effect
  | _, [] => ([], [])
  | i, p :: sub =>
    let (sub, effects) := joinLoop pid (i + 1) sub
    if p.pid = pid then ({ p with pid := -1 } :: sub, .close i :: effects) else (p :: sub, effects)

/-- The `waitpid` loop. -/
def waitLoop : List Int → List Process → List Process × List Effect
  | [], sub => (sub, [])
  | pid :: pids, sub =>
    let (sub, effects) := joinLoop pid 0 sub
    let (sub, effects') := waitLoop pids sub
    (sub, .reap pid :: effects ++ effects')

/-- `m_stop` after the loop that withdraws it. -/
def stopLoop : List Process → Bool
  | [] => true
  | p :: sub => if p.pid ≠ -1 then false else stopLoop sub

/-- The loop that terminates the children. -/
def killLoop : List Process → List Effect
  | [] => []
  | p :: sub => if p.pid ≠ -1 then .kill p.pid :: killLoop sub else killLoop sub

def onSignal (st : Parent) : Signal → Parent × List Effect
  | .chld pids =>
    let (sub, effects) := waitLoop pids st.subProcess
    ({ st with subProcess := sub, stop := stopLoop sub }, effects)
  | .term | .int => (st, killLoop st.subProcess)
  | .other => (st, [])

/-- The loop over the signal bytes. -/
def signalLoop : List Signal → Parent → Parent × List Effect
  | [], st => (st, [])
  | sig :: sigs, st =>
    let (st, effects) := onSignal st sig
    let (st, effects') := signalLoop sigs st
    (st, effects ++ effects')

/-- The body of the event loop. -/
def handle (st : Parent) : Event → Except Fault (Parent × List Effect × Bool)
  | .listen => onListen st
  | .signals received =>
    let (st, effects) := signalLoop received st
    return (st, effects, false)
  | .other => return (st, [], false)

end Parent

/-- The parent in its event loop, with the reported events that it has not handled, and
    what it has done. -/
structure ParentState where
  parent : Parent
  events : List Event
  trace : List Effect

def ParentState.init (pids : List Int) : ParentState where
  parent := .init pids
  events := []
  trace := []

/-- What `waitpid` returns for a signal. -/
def Signal.waited : Signal → List Int
  | .chld pids => pids
  | _ => []

/-- What `waitpid` returns while an event is handled. -/
def Event.waited : Event → List Int
  | .signals received => received.flatMap Signal.waited
  | _ => []

/-- `waitpid` returns children of the pool, none of them twice. -/
def Waits (pids : List Int) (trace : List Effect) (ev : Event) : Prop :=
  ev.waited.Nodup ∧ ∀ q ∈ ev.waited, q ∈ pids ∧ Effect.reap q ∉ trace

/-- A turn of the outer loop collects any events, unless `m_stop` is set; one of the inner
    loop handles the next event. -/
inductive ParentStep (pids : List Int) : ParentState → Option Event → ParentState → Prop where
  | wait {st : ParentState} (events : List Event) : st.events = [] → st.parent.stop = false →
      ParentStep pids st none { st with events := events }
  | handle {st : ParentState} {ev : Event} {events : List Event} {parent : Parent}
      {effects : List Effect} {leaves : Bool} :
      st.events = ev :: events → Waits pids st.trace ev →
      st.parent.handle ev = .ok (parent, effects, leaves) →
      ParentStep pids st (some ev)
        ⟨parent, if leaves then [] else events, st.trace ++ effects⟩

end ProcessPool
