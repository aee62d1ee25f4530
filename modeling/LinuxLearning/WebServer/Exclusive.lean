-- SUMMARY: Every open connection is in exactly one hand exactly if the queue never refuses one and no number comes back to a worker that is still in its object.
import LinuxLearning.WebServer.Arrivals
import LinuxLearning.WebServer.Interleaving

/-!
# Exactly one hand

An open connection is the main loop's business, in the work queue, or in one worker's
`process()`. `main` drops the result of `append`, so a refused connection is in none.
-/

namespace WebServer

open Http Transition

variable {s t : Server} {a : Action} {fd : Int} {n m : Nat}

/-- The descriptor is armed, or an event of it waits for or is handled by the main loop. -/
def Server.InLoop (s : Server) (fd : Int) : Prop :=
  (∃ ev, s.epoll fd = some (some ev)) ∨ some fd ∈ s.events.map Event.sockfd ∨
    ∃ st, s.threads .main = some (fd, st)

/-- The worker is inside `process()` of the object. -/
def Server.Processes (s : Server) (w : Nat) (fd : Int) : Prop :=
  ∃ st, s.threads (.worker w) = some (fd, st)

/-- The connection is in exactly one of the three situations. -/
inductive Situated (s : Server) (fd : Int) : Prop where
  | loop : s.InLoop fd → fd ∉ s.workqueue → (∀ w, ¬ s.Processes w fd) → Situated s fd
  | queue : ¬ s.InLoop fd → s.workqueue.count fd = 1 → (∀ w, ¬ s.Processes w fd) → Situated s fd
  | worker (w : Nat) : ¬ s.InLoop fd → fd ∉ s.workqueue → s.Processes w fd →
      (∀ w', s.Processes w' fd → w' = w) → Situated s fd

def Exclusive (s : Server) : Prop :=
  ∀ fd ∈ s.opened, Situated s fd

theorem At.inLoop {p : Phase} (h : At True s fd p) (hopen : fd ∈ s.opened) :
    s.InLoop fd ↔ p = .armed ∨ p = .reported ∨ ∃ st, p = .held .main st := by
  have hne := h.opened.mp hopen
  constructor
  · rintro (⟨ev, hev⟩ | hmem | ⟨st, hst⟩)
    · have hreg := h.registers
      rw [hev] at hreg
      exact hreg.armed.imp_right .inr
    · have hcount := h.reported
      split at hcount
      · exact .inr (.inl ‹_›)
      · exact absurd hmem (List.count_eq_zero.mp hcount)
    · exact .inr (.inr ⟨st, h.of_threads hst (h.alone trivial hne _ _ hst)⟩)
  · rintro (rfl | rfl | ⟨st, rfl⟩)
    · exact .inl h.registers
    · exact .inr (.inl (List.count_pos_iff.mp (h.reported ▸ Nat.one_pos)))
    · exact .inr (.inr ⟨st, h.threads⟩)

theorem At.processes {p : Phase} (h : At True s fd p) (hopen : fd ∈ s.opened) (w : Nat) :
    s.Processes w fd ↔ ∃ st, p = .held (.worker w) st := by
  constructor
  · rintro ⟨st, hst⟩
    exact ⟨st, h.of_threads hst (h.alone trivial (h.opened.mp hopen) _ _ hst)⟩
  · rintro ⟨st, rfl⟩
    exact ⟨st, h.threads⟩

theorem At.situated {p : Phase} (h : At True s fd p) (hopen : fd ∈ s.opened) :
    Situated s fd := by
  have hqueue : fd ∈ s.workqueue ↔ p = .queued := by
    rw [← List.count_pos_iff, h.queued]
    split <;> simp_all
  cases p with
  | closed => exact absurd rfl (h.opened.mp hopen)
  | lost => exact absurd rfl (h.kept trivial)
  | armed | reported =>
    exact .loop ((h.inLoop hopen).mpr (by simp)) (by simp [hqueue]) (by simp [h.processes hopen])
  | queued => exact .queue (by simp [h.inLoop hopen]) h.queued (by simp [h.processes hopen])
  | held τ st =>
    cases τ with
    | main =>
      exact .loop ((h.inLoop hopen).mpr (by simp)) (by simp [hqueue]) (by simp [h.processes hopen])
    | worker w =>
      exact .worker w (by simp [h.inLoop hopen]) (by simp [hqueue]) ⟨st, h.threads⟩
        (by simp [h.processes hopen, eq_comm])

theorem Inv.exclusive (h : Inv True s) : Exclusive s := by
  intro fd hopen
  obtain ⟨p, hp⟩ := h fd
  exact hp.situated hopen

theorem not_situated (hepoll : s.epoll fd = some none) (hevents : some fd ∉ s.events.map Event.sockfd)
    (hmain : s.threads .main = none) (hqueue : fd ∉ s.workqueue) (hworkers : ∀ w, ¬ s.Processes w fd) :
    ¬ Situated s fd := by
  rintro (⟨⟨ev, hev⟩ | hmem | ⟨st, hst⟩, -, -⟩ | ⟨-, hcount, -⟩ | ⟨w, -, -, hw, -⟩)
  · cases hepoll.symm.trans hev
  · exact hevents hmem
  · cases hmain.symm.trans hst
  · exact hqueue (List.count_pos_iff.mp (hcount ▸ Nat.one_pos))
  · exact hworkers w hw

/-- A refused connection is in nobody's hands. -/
theorem Inv.refused (h : Inv True s) (hst : s.threads .main = some (fd, .append)) :
    ¬ Exclusive (s.setThread .main none) := by
  have hp := h.holder hst trivial
  intro hexcl
  refine not_situated (s := s.setThread .main none) hp.registers (List.count_eq_zero.mp hp.reported) rfl
    (List.count_eq_zero.mp hp.queued) ?_ (hexcl fd (hp.opened.mpr nofun))
  rintro w ⟨st, hw⟩
  cases hp.of_threads hw (hp.alone trivial nofun _ _ hw)

/-- The step of a refused `append`, or of an `accept` that comes too early, ends with a
    connection in no hand, or in two. -/
theorem Inv.loses (h : Inv True s) (hstep : Step n m s a t) (hloses : Loses m s a) :
    ¬ Exclusive t := by
  cases hstep with
  | append hst =>
    obtain ⟨fd, hst', hfull⟩ := hloses
    cases hst.symm.trans hst'
    rw [if_pos hfull]
    exact h.refused hst
  | @accept connfd =>
    obtain ⟨w, st, hw⟩ := hloses
    intro hexcl
    have hmain := (s.accept connfd).setThread_self .main (some (connfd, .accepted))
    cases hexcl connfd (Finset.mem_insert_self ..) with
    | loop _ _ hnone => exact hnone w ⟨st, hw⟩
    | queue hnot => exact hnot (.inr (.inr ⟨_, hmain⟩))
    | worker _ hnot => exact hnot (.inr (.inr ⟨_, hmain⟩))
  | checkCount hst | refuse hst | init hst | mainClose hst =>
    obtain ⟨fd, hst', -⟩ := hloses
    cases hst.symm.trans hst'
  | _ => exact hloses.elim

theorem Inv.not_loses_iff (h : Inv True s) (hstep : Step n m s a t) :
    ¬ Loses m s a ↔ Exclusive t := by
  constructor
  · intro hloses
    exact (h.step hstep (h.not_reuses a) fun _ => hloses).exclusive
  · intro hexcl hloses
    exact h.loses hstep hloses hexcl

/-- A run never takes a connection out of the one hand it is in exactly if the queue never
    refuses one and `accept` never returns the number of an object that a worker is in. -/
theorem exclusive_iff (users : Int → HttpConn) (es : List Action) (s : Server) :
    Run (fun s a t => Step n m s a t ∧ ¬ Loses m s a) (.start users) es s ↔
      Run (fun s a t => Step n m s a t ∧ Exclusive t) (.start users) es s :=
  Run.congr (I := Inv True) (A := fun s a _ => ¬ Loses m s a) (B := fun _ _ t => Exclusive t)
    (fun _ _ _ h hstep hloses => h.step hstep (h.not_reuses _) fun _ => hloses)
    (fun _ _ _ h hstep => h.not_loses_iff hstep) (start_inv users)

-- ---------------------------------------------------------------------------
-- A full queue
-- ---------------------------------------------------------------------------

/-- The first `k` numbers have sent a byte and wait in the queue, and no worker has begun. -/
structure Filled (k : Nat) (s : Server) : Prop where
  idle : ∀ τ, s.threads τ = none
  events : s.events = []
  length : s.workqueue.length = k
  queued : ∀ fd ∈ s.workqueue, fd < k
  opened : ∀ fd ∈ s.opened, fd < k
  epoll : ∀ fd, (k : Int) ≤ fd → s.epoll fd = none
  count : s.userCount = k

/-- The next client connects and sends a byte. -/
theorem Filled.request {k : Nat} (h : Filled k s) (hk : (k : Int) < maxFd) :
    ∃ es t, Run (Step n m) s es t ∧
      t.threads = Function.update s.threads .main (some ((k : Int), .append)) ∧ t.events = [] ∧
      t.workqueue = s.workqueue ∧ t.opened = insert (k : Int) s.opened ∧
      t.epoll = Function.update s.epoll k (some none) ∧ t.userCount = k + 1 := by
  have hfd : (k : Int) ∉ s.opened := fun hmem => Int.lt_irrefl _ (h.opened _ hmem)
  have hconnect := connect_run (n := n) (m := m) s k (h.idle .main) h.events (Int.natCast_nonneg k) hfd
    (h.epoll k (Int.le_refl _)) (h.count ▸ hk)
  have huser : (s.connected k).users k = (s.users k).initSock k := Function.update_self ..
  have hrequest := request_run (n := n) (m := m) (s.connected k) k [.data [71], .eagain] (h.idle .main) h.events (Function.update_self ..)
    (by rw [huser]; exact Finset.mem_insert_self ..) (by rw [huser]; rfl)
  refine ⟨_, _, Run.append_iff.mpr ⟨_, hconnect, hrequest⟩, rfl, h.events, rfl, rfl, ?_, ?_⟩
  · simp [Server.connected]
  · exact congrArg (· + 1) h.count

theorem fill (users : Int → HttpConn) (k : Nat) (hk : k ≤ m + 1) (hmax : (k : Int) ≤ maxFd) :
    ∃ es s, Run (Step n m) (.start users) es s ∧ Filled k s := by
  induction k with
  | zero => exact ⟨[], _, .nil _, by constructor <;> simp [Server.start]⟩
  | succ k ih =>
    obtain ⟨es, s, hrun, h⟩ := ih (by omega) (by omega)
    obtain ⟨es', t, hrun', hthreads, hevents, hqueue, hopened, hepoll, hcount⟩ :=
      h.request (n := n) (m := m) (by omega)
    have hst : t.threads .main = some ((k : Int), .append) := by simp [hthreads]
    have hroom : ¬ m < t.workqueue.length := by
      rw [hqueue, h.length]
      omega
    refine ⟨_, _, Run.append_iff.mpr ⟨_, hrun, Run.append_iff.mpr ⟨_, hrun',
      .cons (.append hst) (.nil _)⟩⟩, ?_⟩
    rw [if_neg hroom, hqueue]
    refine ⟨fun τ => ?_, hevents, by simp [h.length], ?_, ?_, ?_, ?_⟩
    · simp [Server.setThread, hthreads, Function.update_apply, h.idle]
    · intro fd hfd
      rcases List.mem_append.mp hfd with hfd | hfd
      · have := h.queued fd hfd
        omega
      · obtain rfl := List.mem_singleton.mp hfd
        omega
    · intro fd hfd
      rcases Finset.mem_insert.mp (hopened ▸ hfd) with rfl | hfd
      · omega
      · have := h.opened fd hfd
        omega
    · intro fd hfd
      rw [Server.setThread, hepoll, Function.update_of_ne (by omega)]
      exact h.epoll fd (by omega)
    · simpa [Server.setThread] using hcount

/-- With more requests in the queue than `max_requests`, the next connection is read from
    and dropped. -/
theorem full_queue_drops : ¬ ∀ users es s,
    Run (Step defaultThreadNumber defaultMaxRequests) (.start users) es s → Exclusive s := by
  intro hall
  obtain ⟨es, s, hrun, h⟩ := fill (n := defaultThreadNumber) (m := defaultMaxRequests)
    (fun _ => HttpConn.blank) (defaultMaxRequests + 1) (Nat.le_refl _) (by decide)
  obtain ⟨es', t, hrun', hthreads, hevents, hqueue, hopened, hepoll, -⟩ :=
    h.request (n := defaultThreadNumber) (m := defaultMaxRequests) (by decide)
  have hst : t.threads .main = some (((defaultMaxRequests + 1 : Nat) : Int), .append) := by
    simp [hthreads]
  have hfull : defaultMaxRequests < t.workqueue.length := by
    rw [hqueue, h.length]
    exact Nat.lt_succ_self _
  have hexcl := hall _ _ _ (Run.append_iff.mpr ⟨_, hrun, Run.append_iff.mpr ⟨_, hrun',
    .cons (.append hst) (.nil _)⟩⟩)
  rw [if_pos hfull] at hexcl
  refine not_situated ?_ ?_ rfl ?_ ?_ (hexcl _ (hopened ▸ Finset.mem_insert_self ..))
  · simp [Server.setThread, hepoll]
  · simp [Server.setThread, hevents]
  · intro hmem
    exact Int.lt_irrefl _ (h.queued _ (hqueue ▸ hmem))
  · rintro w ⟨st, hw⟩
    simp [Server.setThread, hthreads, h.idle] at hw

end WebServer
