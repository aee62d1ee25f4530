-- SUMMARY: The work queue of pthread_cond.c with any number of producers and consumers: who takes a message, and that no wake-up is lost.
import LinuxLearning.Common.SinglyLinked
import LinuxLearning.Common.Stack

/-!
# The work queue

Producers in `push_front_msg` and consumers in `pop_front_msg` share a list of messages. What
a thread does under the mutex is one step. A signal is a step of its own: between it and the
push it is for, the other threads run. A wait releases the mutex and blocks in one step, and a
thread that is woken up tests the queue again as soon as it has the mutex.
-/

namespace PthreadCond

open Memory SinglyLinked Transition

/-- `struct msg`, without the rest of its members. -/
structure Msg where
  mNext : Option Ptr
  info : Int
deriving Repr, DecidableEq

/-- The messages in memory, and `work_queue`. -/
structure Queue where
  store : Store Msg
  workQueue : Option Ptr

/-- `push_front_msg` under the mutex. -/
def pushFrontMsg (q : Queue) (m : Option Ptr) : Except Fault Queue := do
  let s ← modify q.store m ({ · with mNext := q.workQueue })
  return { store := s, workQueue := m }

/-- `pop_front_msg` under the mutex, from a test of the inner loop on: the message taken, or
    `none` where the thread has to wait. -/
def popFrontMsg (q : Queue) : Except Fault (Option Ptr × Queue) := do
  if q.workQueue = none then return (none, q)
  else
    let m := q.workQueue
    return (m, { q with workQueue := (← deref q.store m).mNext })

/-- Where a producer is: in `signal` it has released the mutex. -/
inductive Producer where
  | ready
  | signal
deriving Repr, DecidableEq

/-- Where a consumer is: it asks for the mutex in `lock`, and in `woken` on its way out of
    `pthread_cond_wait`. -/
inductive Consumer where
  | lock
  | blocked
  | woken
  | process (m : Ptr)
deriving Repr, DecidableEq

structure System (P C : Type) where
  queue : Queue
  producers : P → Producer
  consumers : C → Consumer

inductive Event (P C : Type) where
  | push (p : P) (m : Ptr)
  | signal (p : P) (woken : Finset C)
  | wait (c : C)
  | take (c : C) (m : Ptr)
  | spurious (c : C)
  | process (c : C)
  | memory

/-- The consumers that get the mutex next. -/
def Consumer.Asks (c : Consumer) : Prop :=
  c = .lock ∨ c = .woken

namespace System

variable {P C : Type} [DecidableEq P] [DecidableEq C]

/-- The threads start with an empty queue. -/
def start (store : Store Msg) : System P C where
  queue := ⟨store, none⟩
  producers := fun _ => .ready
  consumers := fun _ => .lock

def setProducer (s : System P C) (p : P) (phase : Producer) : System P C :=
  { s with producers := Function.update s.producers p phase }

def setConsumer (s : System P C) (c : C) (phase : Consumer) : System P C :=
  { s with consumers := Function.update s.consumers c phase }

/-- A message that is not in the queue. -/
def Fresh (s : System P C) (m : Ptr) : Prop :=
  ¬ Linked Msg.mNext s.queue.store s.queue.workQueue m

/-- `pthread_cond_signal` wakes up at least one of the threads that are blocked, if there are
    any. With `memory` the threads allocate, write and free whatever is not in the queue. -/
inductive Step : System P C → Event P C → System P C → Prop where
  | push {s : System P C} {p : P} {m : Ptr} {v : Msg} {q : Queue} : s.producers p = .ready →
      s.queue.store m = some v → s.Fresh m → pushFrontMsg s.queue (some m) = .ok q →
      Step s (.push p m) { s.setProducer p .signal with queue := q }
  | signal {s : System P C} {p : P} {woken : Finset C} : s.producers p = .signal →
      (∀ c ∈ woken, s.consumers c = .blocked) →
      (∀ c, s.consumers c = .blocked → woken.Nonempty) →
      Step s (.signal p woken) { s.setProducer p .ready with
        consumers := fun c => if c ∈ woken then .woken else s.consumers c }
  | wait {s : System P C} {c : C} {q : Queue} : (s.consumers c).Asks →
      popFrontMsg s.queue = .ok (none, q) →
      Step s (.wait c) { s.setConsumer c .blocked with queue := q }
  | take {s : System P C} {c : C} {m : Ptr} {q : Queue} : (s.consumers c).Asks →
      popFrontMsg s.queue = .ok (some m, q) →
      Step s (.take c m) { s.setConsumer c (.process m) with queue := q }
  | spurious {s : System P C} {c : C} : s.consumers c = .blocked →
      Step s (.spurious c) (s.setConsumer c .woken)
  | process {s : System P C} {c : C} {m : Ptr} : s.consumers c = .process m →
      Step s (.process c) (s.setConsumer c .lock)
  | memory {s : System P C} {store : Store Msg} :
      (∀ m, ¬ s.Fresh m → store m = s.queue.store m) →
      Step s .memory { s with queue := ⟨store, s.queue.workQueue⟩ }

end System

/-- The messages in the queue are `ms`, from the front. -/
def Queue.Holds (q : Queue) (ms : List Ptr) : Prop :=
  Chain Msg.mNext q.store q.workQueue ms

variable {q q' : Queue} {m : Ptr} {ms : List Ptr} {v : Msg}

theorem pushFrontMsg_ok (h : q.Holds ms) (hv : q.store m = some v) (hm : m ∉ ms) :
    ∃ q', pushFrontMsg q (some m) = .ok q' ∧ q'.Holds (m :: ms) := by
  refine ⟨⟨Function.update q.store m (some { v with mNext := q.workQueue }), some m⟩, ?_, ?_⟩
  · simp [pushFrontMsg, hv]
  · exact Chain.push h hm rfl

/-- The message at the front is taken, if there is one. -/
theorem popFrontMsg_ok (h : q.Holds ms) :
    ∃ q', popFrontMsg q = .ok (ms.head?, q') ∧ q'.Holds ms.tail := by
  cases ms with
  | nil =>
    have hnone : q.workQueue = none := h
    exact ⟨q, by simp [popFrontMsg, hnone], h⟩
  | cons m ms =>
    obtain ⟨hsome, v, hv, hms⟩ := h
    exact ⟨⟨q.store, v.mNext⟩, by simp [popFrontMsg, hsome, hv], hms⟩

/-- A consumer waits only where there is nothing to take. -/
theorem popFrontMsg_none (h : popFrontMsg q = .ok (none, q')) : q.workQueue = none ∧ q' = q := by
  cases hq : q.workQueue with
  | none =>
    simp only [popFrontMsg, hq, if_true] at h
    cases h
    exact ⟨rfl, rfl⟩
  | some m =>
    cases hv : q.store m with
    | none =>
      simp only [popFrontMsg, hq, deref, hv, reduceCtorEq, if_false] at h
      cases h
    | some v => simp [popFrontMsg, hq, hv] at h

/-- What a step does to the queue as a stack. -/
def Event.stack {P C : Type} : Event P C → Stack.Event Ptr C
  | .push _ m => .push m
  | .take c m => .pop c m
  | _ => .skip

namespace System

variable {P C : Type} [DecidableEq P] [DecidableEq C] {s t : System P C} {e : Event P C}
  {es : List (Event P C)} {store : Store Msg}

omit [DecidableEq P] [DecidableEq C] in
theorem fresh_iff (h : s.queue.Holds ms) : s.Fresh m ↔ m ∉ ms :=
  not_congr (Chain.linked_iff h)

/-- A step is one of the stack of messages. -/
theorem Step.stack (h : Step s e t) (hs : s.queue.Holds ms) :
    ∃ ms', Stack.Step ms e.stack ms' ∧ t.queue.Holds ms' := by
  cases h with
  | @push p m v q _ hv hfresh hrun =>
    have hm := (fresh_iff hs).mp hfresh
    obtain ⟨q', hrun', hholds⟩ := pushFrontMsg_ok hs hv hm
    obtain rfl := Except.ok.inj (hrun.symm.trans hrun')
    exact ⟨_, .push hm, hholds⟩
  | @take c m q _ hrun =>
    obtain ⟨q', hrun', hholds⟩ := popFrontMsg_ok hs
    rw [hrun, Except.ok.injEq, Prod.mk.injEq] at hrun'
    obtain ⟨hhead, rfl⟩ := hrun'
    cases ms with
    | nil => cases hhead
    | cons m' ms =>
      cases hhead
      exact ⟨ms, .pop c, hholds⟩
  | wait _ hrun =>
    obtain ⟨-, rfl⟩ := popFrontMsg_none hrun
    exact ⟨ms, .skip ms, hs⟩
  | memory hkeep =>
    refine ⟨ms, .skip ms, Chain.congr hs fun m hm => hkeep m ?_⟩
    rw [fresh_iff hs, not_not]
    exact hm
  | signal _ _ _ => exact ⟨ms, .skip ms, hs⟩
  | spurious _ => exact ⟨ms, .skip ms, hs⟩
  | process _ => exact ⟨ms, .skip ms, hs⟩

/-- The queue is a stack that the threads push to and pop from. -/
theorem run_stack (hrun : Run Step (start store) es s) :
    ∃ ms, Run Stack.Step [] (es.map Event.stack) ms ∧ s.queue.Holds ms := by
  refine Run.history (I := fun es s => ∃ ms, Run Stack.Step [] (es.map Event.stack) ms ∧ s.queue.Holds ms)
    (fun es s e t h hstep => ?_) hrun ⟨[], .nil [], rfl⟩
  obtain ⟨ms, hstack, hs⟩ := h
  obtain ⟨ms', hstep', ht⟩ := hstep.stack hs
  refine ⟨ms', ?_, ht⟩
  rw [List.map_append]
  exact Run.append_iff.mpr ⟨ms, hstack, .cons hstep' (.nil ms')⟩

-- ---------------------------------------------------------------------------
-- Wake-ups
-- ---------------------------------------------------------------------------

/-- There are messages, but every consumer is blocked and no signal is to come. -/
def Stuck (s : System P C) : Prop :=
  s.queue.workQueue ≠ none ∧ (∀ c, s.consumers c = .blocked) ∧ ∀ p, s.producers p ≠ .signal

theorem not_all_blocked (consumers : C → Consumer) (c : C) (phase : Consumer) (hphase : phase ≠ .blocked) :
    ¬ ∀ c', Function.update consumers c phase c' = .blocked :=
  fun hall => hphase (by simpa using hall c)

/-- A consumer blocks on an empty queue, a push has its signal to send, and a signal finds
    a consumer to wake up where all of them are blocked. -/
theorem Step.not_stuck [Nonempty C] (h : Step s e t) (hs : ¬ s.Stuck) : ¬ t.Stuck := by
  rintro ⟨hqueue, hblocked, hsignal⟩
  cases h with
  | @push p _ _ _ _ _ _ _ => exact hsignal p (Function.update_self ..)
  | @signal p woken _ hwoken hsome =>
    obtain ⟨c⟩ := ‹Nonempty C›
    have hnot : ∀ c, c ∉ woken := fun c hc => by simpa [hc] using hblocked c
    have hc : s.consumers c = .blocked := by simpa [hnot c] using hblocked c
    obtain ⟨c', hc'⟩ := hsome c hc
    exact hnot c' hc'
  | wait _ hrun =>
    obtain ⟨hempty, rfl⟩ := popFrontMsg_none hrun
    exact hqueue hempty
  | @take c m _ _ _ => exact not_all_blocked s.consumers c (.process m) nofun hblocked
  | @spurious c _ => exact not_all_blocked s.consumers c .woken nofun hblocked
  | @process c m _ => exact not_all_blocked s.consumers c .lock nofun hblocked
  | memory _ => exact hs ⟨hqueue, hblocked, hsignal⟩

/-- In every interleaving the queue is a list without repetitions, each message pushed is in it
    or has been taken by one consumer, the next section of a consumer finds a message or an
    empty queue, and the threads are not stuck. -/
theorem run_messages [Nonempty C] (hrun : Run Step (start store) es s) :
    (∃ ms, Chain Msg.mNext s.queue.store s.queue.workQueue ms ∧
      Stack.Accounted (es.map Event.stack) ms) ∧
    (∃ m q, popFrontMsg s.queue = .ok (m, q)) ∧ ¬ s.Stuck := by
  obtain ⟨ms, hstack, hholds⟩ := run_stack hrun
  obtain ⟨q, hpop, -⟩ := popFrontMsg_ok hholds
  refine ⟨⟨ms, hholds, Stack.run_accounted hstack⟩, ⟨_, q, hpop⟩, ?_⟩
  exact Run.invariant (I := fun s => ¬ Stuck s) (fun s e t hs h => h.not_stuck hs) hrun fun h => h.1 rfl

/-- A consumer waits, and another one takes the message before the signal for it is sent. The
    first one wakes up for nothing, and waits again. -/
def overtaken : List (Event (Fin 1) (Fin 2)) :=
  [.wait 0, .push 0 7, .take 1 7, .signal 0 {0}, .wait 0]

theorem run_messages_overtaken : ∃ s, Run Step (start fun _ => some ⟨none, 5⟩) overtaken s ∧
    (∃ ms, Chain Msg.mNext s.queue.store s.queue.workQueue ms ∧
      Stack.Accounted (overtaken.map Event.stack) ms) ∧
    (∃ m q, popFrontMsg s.queue = .ok (m, q)) ∧ ¬ s.Stuck := by
  have hrun : Run Step (start fun _ => some ⟨none, 5⟩) overtaken _ :=
    .cons (.wait (c := (0 : Fin 2)) (.inl rfl) rfl)
      (.cons (.push (p := (0 : Fin 1)) rfl rfl nofun rfl)
        (.cons (.take (c := (1 : Fin 2)) (.inl rfl) rfl)
          (.cons (.signal (p := (0 : Fin 1)) rfl (by decide) fun _ _ => Finset.singleton_nonempty 0)
            (.cons (.wait (c := (0 : Fin 2)) (.inr rfl) rfl) (.nil _)))))
  exact ⟨_, hrun, run_messages hrun⟩

end System

end PthreadCond
