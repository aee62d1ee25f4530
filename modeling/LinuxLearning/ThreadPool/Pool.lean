-- SUMMARY: The thread pool of the web server: the queue, its semaphore, and any number of callers and workers.
import LinuxLearning.Common.Run
import Mathlib.Data.Fintype.BigOperators

/-!
# The thread pool

Callers of `append` put requests in a queue, workers in `run` take them out. The queue is
guarded by a lock, the semaphore counts posts, and the two are updated one after the other:
between a push and its post, and between a wait and the removal it is for, the other threads
run. A locked section, a post and a completed wait are one step each.

A request is a pointer: `none` is `NULL`, which a worker takes out and skips.
-/

namespace ThreadPool

open Transition

/-- Where a call of `append` is: in `post` it has pushed its request and left the lock. -/
inductive Caller where
  | ready
  | post
  deriving DecidableEq

/-- Where a worker is in the loop of `run`: in `lock` its wait has returned. -/
inductive Worker (T : Type) where
  | wait
  | lock
  | process (request : T)
  deriving DecidableEq

structure Pool (ι T : Type) where
  threadNumber : Nat
  maxRequests : Nat
  workqueue : List (Option T)
  queuestat : Nat
  stop : Bool
  callers : ι → Caller
  workers : Nat → Worker T

/-- A section of a thread, with what it finds. -/
inductive Event (ι T : Type) where
  | append (c : ι) (request : Option T) (ok : Bool)
  | post (c : ι)
  | wait (w : Nat)
  | take (w : Nat) (found : Option (Option T))
  | process (w : Nat)

namespace Pool

variable {ι T : Type} [DecidableEq ι]

/-- The constructor; `created i` is whether thread `i` can be created and detached. -/
def threadpool (created : Nat → Bool) (threadNumber maxRequests : Int) : Option (Pool ι T) :=
  if threadNumber ≤ 0 || maxRequests ≤ 0 then
    none
  else if (List.range threadNumber.toNat).all created then
    some {
      threadNumber := threadNumber.toNat
      maxRequests := maxRequests.toNat
      workqueue := []
      queuestat := 0
      stop := false
      callers := fun _ => .ready
      workers := fun _ => .wait }
  else
    none

def setCaller (s : Pool ι T) (c : ι) (phase : Caller) : Pool ι T :=
  { s with callers := Function.update s.callers c phase }

def setWorker (s : Pool ι T) (w : Nat) (phase : Worker T) : Pool ι T :=
  { s with workers := Function.update s.workers w phase }

/-- The locked section of `append`. -/
def append (s : Pool ι T) (c : ι) (request : Option T) : Bool × Pool ι T :=
  if s.maxRequests < s.workqueue.length then
    (false, s)
  else
    (true, { s.setCaller c .post with workqueue := s.workqueue ++ [request] })

/-- `m_queuestat.post()` at the end of `append`. -/
def post (s : Pool ι T) (c : ι) : Pool ι T :=
  { s.setCaller c .ready with queuestat := s.queuestat + 1 }

/-- `m_queuestat.wait()` in `run`, when it returns. -/
def wait (s : Pool ι T) (w : Nat) : Pool ι T :=
  { s.setWorker w .lock with queuestat := s.queuestat - 1 }

/-- What a worker does with the request it has taken out. -/
def afterTake : Option T → Worker T
  | none => .wait
  | some request => .process request

/-- The locked section of `run`, with the request it finds at the front. -/
def take (s : Pool ι T) (w : Nat) : Option (Option T) × Pool ι T :=
  match s.workqueue with
  | [] => (none, s.setWorker w .wait)
  | request :: queue => (some request, { s.setWorker w (afterTake request) with workqueue := queue })

inductive Step : Pool ι T → Event ι T → Pool ι T → Prop where
  | append {s : Pool ι T} {c : ι} (request : Option T) : s.callers c = .ready →
      Step s (.append c request (s.append c request).1) (s.append c request).2
  | post {s : Pool ι T} {c : ι} : s.callers c = .post → Step s (.post c) (s.post c)
  | wait {s : Pool ι T} {w : Nat} : w < s.threadNumber → s.stop = false → s.workers w = .wait →
      0 < s.queuestat → Step s (.wait w) (s.wait w)
  | take {s : Pool ι T} {w : Nat} : w < s.threadNumber → s.workers w = .lock →
      Step s (.take w (s.take w).1) (s.take w).2
  | process {s : Pool ι T} {w : Nat} {request : T} : w < s.threadNumber →
      s.workers w = .process request → Step s (.process w) (s.setWorker w .wait)

omit [DecidableEq ι] in
theorem threadpool_eq_some {created : Nat → Bool} {threadNumber maxRequests : Int} {s : Pool ι T}
    (h : threadpool created threadNumber maxRequests = some s) :
    s.workqueue = [] ∧ s.queuestat = 0 ∧ s.callers = (fun _ => .ready) ∧
      s.workers = fun _ => .wait := by
  simp only [threadpool] at h
  split at h
  · cases h
  · split at h
    · cases h
      exact ⟨rfl, rfl, rfl, rfl⟩
    · cases h

/-- A call that finds the queue too long changes nothing. -/
theorem append_full {s : Pool ι T} {c : ι} {request : Option T}
    (h : s.maxRequests < s.workqueue.length) : s.append c request = (false, s) :=
  if_pos h

theorem append_push {s : Pool ι T} {c : ι} {request : Option T}
    (h : ¬ s.maxRequests < s.workqueue.length) :
    s.append c request = (true, { s.setCaller c .post with workqueue := s.workqueue ++ [request] }) :=
  if_neg h

omit [DecidableEq ι] in
theorem take_nil {s : Pool ι T} {w : Nat} (h : s.workqueue = []) :
    s.take w = (none, s.setWorker w .wait) := by
  simp only [take, h]

omit [DecidableEq ι] in
theorem take_cons {s : Pool ι T} {w : Nat} {request : Option T} {queue : List (Option T)}
    (h : s.workqueue = request :: queue) :
    s.take w = (some request, { s.setWorker w (afterTake request) with workqueue := queue }) := by
  simp only [take, h]

/-! ## What went in and what came out -/

/-- The requests appended, in the order of the pushes. -/
def appended (es : List (Event ι T)) : List (Option T) :=
  es.filterMap fun
    | .append _ request true => some request
    | _ => none

/-- The requests taken out, in the order of the removals, each with the worker that took it. -/
def taken (es : List (Event ι T)) : List (Nat × Option T) :=
  es.filterMap fun
    | .take w (some request) => some (w, request)
    | _ => none

omit [DecidableEq ι] in
theorem appended_append (es fs : List (Event ι T)) :
    appended (es ++ fs) = appended es ++ appended fs :=
  List.filterMap_append

omit [DecidableEq ι] in
theorem taken_append (es fs : List (Event ι T)) : taken (es ++ fs) = taken es ++ taken fs :=
  List.filterMap_append

theorem Step.fifo {s t : Pool ι T} {e : Event ι T} (h : Step s e t) :
    (taken [e]).map Prod.snd ++ t.workqueue = s.workqueue ++ appended [e] := by
  cases h with
  | append request hc =>
    by_cases hfull : s.maxRequests < s.workqueue.length
    · rw [append_full hfull]
      simp [taken, appended]
    · rw [append_push hfull]
      simp [taken, appended]
  | post _ => simp [taken, appended, Pool.post, setCaller]
  | wait _ _ _ _ => simp [taken, appended, Pool.wait, setWorker]
  | @take w _ _ =>
    cases hq : s.workqueue with
    | nil =>
      rw [take_nil hq]
      simp [taken, appended, setWorker, hq]
    | cons request queue =>
      rw [take_cons hq]
      simp [taken, appended]
  | process _ _ => simp [taken, appended, setWorker]

/-- The queue is what has been appended and not been taken. -/
theorem run_fifo {s t : Pool ι T} {es : List (Event ι T)} (hrun : Run Step s es t) :
    (taken es).map Prod.snd ++ t.workqueue = s.workqueue ++ appended es := by
  induction hrun with
  | nil s => simp [taken, appended]
  | @cons s t u e es h _ ih =>
    calc (taken (e :: es)).map Prod.snd ++ u.workqueue
        = (taken [e]).map Prod.snd ++ ((taken es).map Prod.snd ++ u.workqueue) := by
          rw [← List.singleton_append, taken_append, List.map_append, List.append_assoc]
      _ = s.workqueue ++ appended [e] ++ appended es := by
          rw [ih, ← List.append_assoc, h.fifo]
      _ = s.workqueue ++ appended (e :: es) := by
          rw [List.append_assoc, ← appended_append, List.singleton_append]

/-! ## The semaphore -/

/-- Whether the worker has waited for a request it has not taken yet. -/
def Worker.claims : Worker T → Nat
  | .lock => 1
  | _ => 0

/-- Whether the caller has pushed a request it has not posted yet. -/
def Caller.owes : Caller → Nat
  | .post => 1
  | .ready => 0

/-- The workers between their wait and their removal. -/
def claimed (s : Pool ι T) : Nat :=
  ∑ w ∈ Finset.range s.threadNumber, Worker.claims (s.workers w)

/-- The calls of `append` between their push and their post. -/
def unposted [Fintype ι] (s : Pool ι T) : Nat :=
  ∑ c, Caller.owes (s.callers c)

variable [Fintype ι]

/-- A request in the queue is posted to the semaphore, claimed by a worker, or yet to be posted. -/
def Accounts (s : Pool ι T) : Prop :=
  s.queuestat + claimed s + unposted s = s.workqueue.length

omit [Fintype ι] [DecidableEq ι] in
theorem claimed_setWorker (s : Pool ι T) {w : Nat} (hw : w < s.threadNumber) (phase : Worker T) :
    claimed (s.setWorker w phase) + Worker.claims (s.workers w) =
      claimed s + Worker.claims phase :=
  sum_update Worker.claims s.workers phase (Finset.mem_range.mpr hw)

theorem unposted_setCaller (s : Pool ι T) (c : ι) (phase : Caller) :
    unposted (s.setCaller c phase) + Caller.owes (s.callers c) = unposted s + Caller.owes phase :=
  sum_update Caller.owes s.callers phase (Finset.mem_univ c)

theorem Step.accounts {s t : Pool ι T} {e : Event ι T} (h : Step s e t) (hs : Accounts s) :
    Accounts t := by
  have hsum : s.queuestat + claimed s + unposted s = s.workqueue.length := hs
  cases h with
  | @append c request hc =>
    by_cases hfull : s.maxRequests < s.workqueue.length
    · rw [append_full hfull]
      exact hs
    · rw [append_push hfull]
      have hu := unposted_setCaller s c .post
      simp only [hc, Caller.owes] at hu
      change s.queuestat + claimed s + unposted (s.setCaller c .post) =
        (s.workqueue ++ [request]).length
      rw [List.length_append, List.length_singleton]
      omega
  | @post c hc =>
    have hu := unposted_setCaller s c .ready
    simp only [hc, Caller.owes] at hu
    change s.queuestat + 1 + claimed s + unposted (s.setCaller c .ready) = s.workqueue.length
    omega
  | @wait w hw _ hwait hpos =>
    have hcl := claimed_setWorker s hw .lock
    simp only [hwait, Worker.claims] at hcl
    change s.queuestat - 1 + claimed (s.setWorker w .lock) + unposted s = s.workqueue.length
    omega
  | @take w hw hlock =>
    cases hq : s.workqueue with
    | nil =>
      -- a claim on an empty queue would not be accounted for
      have hcl := claimed_setWorker s hw .wait
      simp only [hlock, Worker.claims] at hcl
      rw [hq, List.length_nil] at hsum
      omega
    | cons request queue =>
      have hafter : Worker.claims (afterTake request) = 0 := by cases request <;> rfl
      have hcl := claimed_setWorker s hw (afterTake request)
      rw [hlock, hafter] at hcl
      simp only [Worker.claims] at hcl
      rw [hq, List.length_cons] at hsum
      rw [take_cons hq]
      change s.queuestat + claimed (s.setWorker w (afterTake request)) + unposted s = queue.length
      omega
  | @process w request hw hprocess =>
    have hcl := claimed_setWorker s hw .wait
    simp only [hprocess, Worker.claims] at hcl
    change s.queuestat + claimed (s.setWorker w .wait) + unposted s = s.workqueue.length
    omega

theorem run_accounts {s t : Pool ι T} {es : List (Event ι T)} (hrun : Run Step s es t)
    (hs : Accounts s) : Accounts t :=
  Run.invariant (fun _ _ _ hs h => h.accounts hs) hrun hs

omit [DecidableEq ι] in
theorem threadpool_accounts {created : Nat → Bool} {threadNumber maxRequests : Int} {s : Pool ι T}
    (h : threadpool created threadNumber maxRequests = some s) : Accounts s := by
  obtain ⟨hqueue, hstat, hcallers, hworkers⟩ := threadpool_eq_some h
  simp [Accounts, claimed, unposted, hqueue, hstat, hcallers, hworkers, Worker.claims, Caller.owes]

omit [DecidableEq ι] in
/-- A woken worker finds a request. -/
theorem Accounts.queue_ne_nil {s : Pool ι T} (hs : Accounts s) {w : Nat} (hw : w < s.threadNumber)
    (hlock : s.workers w = .lock) : s.workqueue ≠ [] := by
  intro hq
  have hsum : s.queuestat + claimed s + unposted s = s.workqueue.length := hs
  have hcl := claimed_setWorker s hw .wait
  simp only [hlock, Worker.claims] at hcl
  rw [hq, List.length_nil] at hsum
  omega

theorem run_take_some {s t : Pool ι T} {es : List (Event ι T)} (hrun : Run Step s es t)
    (hs : Accounts s) (w : Nat) : .take w none ∉ es := by
  intro hmem
  obtain ⟨es₁, es₂, rfl⟩ := List.append_of_mem hmem
  obtain ⟨u, hrun₁, hrun₂⟩ := Run.append_iff.mp hrun
  obtain ⟨v, hstep, -⟩ := Run.cons_iff.mp hrun₂
  have hu := run_accounts hrun₁ hs
  generalize he : Event.take w none = e at hstep
  cases hstep with
  | @take w' hw hlock =>
    cases hq : u.workqueue with
    | nil => exact hu.queue_ne_nil hw hlock hq
    | cons request queue =>
      rw [take_cons hq] at he
      cases he
  | _ => cases he

/-- Over every run of a new pool: the requests taken out are the first ones appended, in order,
    each by one worker. A post names no request, so of the requests in the queue those are
    posted that the calls of `append` still to post do not make up for; the semaphore and the
    woken workers account for exactly these. -/
theorem run_takes_appended {created : Nat → Bool} {threadNumber maxRequests : Int}
    {start s : Pool ι T} {es : List (Event ι T)}
    (hnew : threadpool created threadNumber maxRequests = some start) (hrun : Run Step start es s) :
    (taken es).map Prod.snd ++ s.workqueue = appended es ∧
    (∀ i request, i < (taken es).length → (appended es)[i]? = some request →
      ∃! w, (taken es)[i]? = some (w, request)) ∧
    s.queuestat + claimed s + unposted s = s.workqueue.length ∧
    (∀ w, w < s.threadNumber → s.workers w = .lock → s.workqueue ≠ []) ∧
    (∀ w, .take w none ∉ es) ∧
    (claimed s < s.workqueue.length - unposted s → 0 < s.queuestat) := by
  have hstart := threadpool_accounts hnew
  have hs := run_accounts hrun hstart
  have hsum : s.queuestat + claimed s + unposted s = s.workqueue.length := hs
  have hfifo := run_fifo hrun
  rw [(threadpool_eq_some hnew).1, List.nil_append] at hfifo
  refine ⟨hfifo, ?_, hsum, fun w hw hlock => hs.queue_ne_nil hw hlock, run_take_some hrun hstart,
    by omega⟩
  intro i request hi happended
  have hget : ((taken es)[i]).2 = request := by
    rw [← hfifo, List.getElem?_append_left (by simpa using hi), List.getElem?_map,
      List.getElem?_eq_getElem hi] at happended
    simpa using happended
  refine ⟨((taken es)[i]).1, ?_, ?_⟩
  · rw [List.getElem?_eq_getElem hi, ← hget]
  · intro w hw
    rw [List.getElem?_eq_getElem hi] at hw
    rw [Option.some.inj hw]

/-- The second caller posts first, and the worker it wakes takes the request of the first. -/
theorem run_takes_appended_overtaken :
    ∃ start s : Pool (Fin 2) Nat, threadpool (fun _ => true) 2 1 = some start ∧
      Run Step start [.append 0 (some 7) true, .append 1 none true, .post 1, .wait 0,
        .take 0 (some (some 7)), .post 0] s ∧
      [some 7] ++ s.workqueue = [some 7, none] ∧
      (claimed s < s.workqueue.length - unposted s → 0 < s.queuestat) := by
  let start : Pool (Fin 2) Nat := ⟨2, 1, [], 0, false, fun _ => .ready, fun _ => .wait⟩
  have hnew : threadpool (fun _ => true) 2 1 = some start := rfl
  have hrun := Run.cons (Step.append (s := start) (c := (0 : Fin 2)) (some 7) rfl)
    (.cons (.append (c := (1 : Fin 2)) none rfl)
      (.cons (.post (c := (1 : Fin 2)) rfl)
        (.cons (.wait (w := 0) (by decide) rfl rfl (by decide))
          (.cons (.take (w := 0) (by decide) rfl) (.cons (.post (c := (0 : Fin 2)) rfl) (.nil _))))))
  have h := run_takes_appended hnew hrun
  exact ⟨_, _, hnew, hrun, h.1, h.2.2.2.2.2⟩

end Pool

end ThreadPool
