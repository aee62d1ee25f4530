-- SUMMARY: m_sockfd, m_user_count and the closes agree with the open descriptors of clients, while no number is reused too early.
import LinuxLearning.WebServer.Arrivals
import LinuxLearning.WebServer.Interleaving

/-!
# Descriptors and objects

`init` counts a connection after its descriptor is open, and `close_conn` after it is
closed. In between the count is off by the connections that are under way in a thread.
-/

namespace WebServer

open Http Transition

variable {s t : Server} {a : Action} {fd : Int} {τ : Thread} {o : Option (Int × Stage)}
  {n m : Nat}

/-- No thread is inside `init` or `close_conn`. -/
def Settled (s : Server) : Prop :=
  ∀ τ fd st, s.threads τ = some (fd, st) → (∀ i, st ≠ .init i) ∧ ∀ c, st ≠ .closing c

/-- The open descriptors of clients, without one that `accept` has returned and `main` has
    not yet passed to `init`. -/
def Server.clients (s : Server) : Finset Int :=
  match s.threads .main with
  | some (fd, .accepted) | some (fd, .refuse) => s.opened.erase fd
  | _ => s.opened

structure Consistent (s : Server) : Prop where
  sockfd : Settled s → ∀ fd ∈ s.clients, (s.users fd).sockfd = fd
  others : Settled s → ∀ fd, s.inited fd = true → fd ∉ s.clients → (s.users fd).sockfd = -1
  count : Settled s → s.userCount = s.clients.card
  closes : ∀ fd, s.closed fd + (if fd ∈ s.opened then 1 else 0) = s.accepted fd

-- ---------------------------------------------------------------------------
-- The count
-- ---------------------------------------------------------------------------

/-- What the count is ahead of the open descriptors by. -/
def Stage.ahead : Stage → Int
  | .accepted | .refuse | .init .sock | .init .add | .init .count => -1
  | .closing .reset | .closing .count => 1
  | _ => 0

def ahead : Option (Int × Stage) → Int
  | none => 0
  | some (_, st) => st.ahead

/-- The stages of `process`. -/
def Stage.InPool : Stage → Prop
  | .processRead | .processWrite _ | .modfd _ | .closing _ | .modfdClosed => True
  | _ => False

def poolThreads (n : Nat) : Finset Thread :=
  insert .main ((Finset.range n).image .worker)

/-- The threads are those of the pool, and the count is what they have made of it. -/
structure Counted (n : Nat) (s : Server) : Prop where
  pool : ∀ τ, τ ∉ poolThreads n → s.threads τ = none
  workers : ∀ w fd st, s.threads (.worker w) = some (fd, st) → st.InPool
  count : s.userCount = s.opened.card + ∑ τ ∈ poolThreads n, ahead (s.threads τ)

theorem Counted.set (h : Counted n s) (hthreads : t.threads = Function.update s.threads τ o)
    (hτ : τ ∈ poolThreads n) (hworkers : ∀ w fd st, τ = .worker w → o = some (fd, st) → st.InPool)
    (hcount : t.userCount - t.opened.card - ahead o =
      s.userCount - s.opened.card - ahead (s.threads τ)) : Counted n t where
  pool τ' hτ' := by
    rw [hthreads, Function.update_of_ne (by rintro rfl; exact hτ' hτ)]
    exact h.pool τ' hτ'
  workers w fd st hst := by
    rcases (update_iff hthreads _).mp hst with ⟨hw, hst⟩ | ⟨-, hst⟩
    · exact hworkers w fd st hw.symm hst
    · exact h.workers w fd st hst
  count := by
    have hsum := sum_update ahead s.threads o hτ
    have := h.count
    rw [hthreads]
    omega

theorem Counted.mem (h : Counted n s) {st : Int × Stage} (hst : s.threads τ = some st) :
    τ ∈ poolThreads n := by
  refine Decidable.byContradiction fun hτ => ?_
  cases (h.pool τ hτ).symm.trans hst

theorem main_mem : Thread.main ∈ poolThreads n :=
  Finset.mem_insert_self ..

/-- A step of a thread that neither counts nor opens or closes. -/
theorem Counted.quiet (h : Counted n s) (hthreads : t.threads = Function.update s.threads τ o)
    (hτ : τ ∈ poolThreads n) (hworkers : ∀ w fd st, τ = .worker w → o = some (fd, st) → st.InPool)
    (hcount : t.userCount = s.userCount) (hopened : t.opened = s.opened)
    (hahead : ahead o = ahead (s.threads τ)) : Counted n t :=
  h.set hthreads hτ hworkers (by rw [hcount, hopened, hahead])

theorem start_counted (users : Int → HttpConn) : Counted n (.start users) where
  pool _ _ := rfl
  workers := nofun
  count := by simp [Server.start, ahead]

/-- The main thread is no worker. -/
theorem main_workers {o : Option (Int × Stage)} :
    ∀ w fd st, Thread.main = .worker w → o = some (fd, st) → st.InPool := by
  rintro _ _ _ ⟨⟩

theorem Counted.init {i : Opening} (h : Counted n s) (hst : s.threads .main = some (fd, .init i)) :
    Counted n ((s.initStep fd i).1.setThread .main ((s.initStep fd i).2.map fun i => (fd, .init i))) := by
  have hold : ahead (s.threads .main) = (Stage.init i).ahead := by
    rw [hst]
    rfl
  cases i with
  | sock | add => exact h.quiet (τ := .main) rfl main_mem main_workers rfl rfl hold.symm
  | count =>
    refine h.set (τ := .main) rfl main_mem main_workers ?_
    rw [hold]
    simp only [Server.initStep, Server.setThread, Option.map_some, ahead, Stage.ahead]
    omega
  | fields => exact h.quiet (τ := .main) rfl main_mem main_workers rfl rfl hold.symm

/-- A statement of `close_conn`, in any thread. The descriptor it closes is open. -/
theorem Counted.closing {tight : Prop} {c : Closing} (h : Counted n s) (hinv : Inv tight s)
    (hst : s.threads τ = some (fd, .closing c)) :
    Counted n ((s.closeStep fd c).1.setThread τ (afterClose fd τ (s.closeStep fd c).2)) := by
  have hworkers : ∀ o w x st, τ = .worker w → afterClose fd τ o = some (x, st) → st.InPool := by
    rintro (_ | c) w x st rfl ⟨⟩ <;> trivial
  have hback : ahead (afterClose fd τ none) = 0 := by
    cases τ <;> rfl
  have hmem := h.mem hst
  cases c with
  | check =>
    refine h.quiet rfl hmem (hworkers _) rfl rfl ?_
    rw [hst]
    simp only [Server.closeStep]
    split
    · exact hback
    · rfl
  | epollDel =>
    refine h.quiet rfl hmem (hworkers _) rfl rfl ?_
    rw [hst]
    rfl
  | close sockfd =>
    have hp := hinv.holder hst trivial
    obtain rfl := hp.captured _ _ rfl
    have hcard := Finset.card_erase_add_one (hp.opened.mpr (by rintro ⟨⟩))
    refine h.set rfl hmem (hworkers _) ?_
    rw [hst]
    simp only [Server.closeStep, Server.close, Server.setThread, afterClose, ahead, Stage.ahead]
    omega
  | reset =>
    refine h.quiet rfl hmem (hworkers _) rfl rfl ?_
    rw [hst]
    rfl
  | count =>
    refine h.set rfl hmem (hworkers _) ?_
    rw [hst]
    simp only [Server.closeStep, hback]
    simp only [Server.setThread, ahead, Stage.ahead]
    omega

theorem Counted.step {tight : Prop} (h : Counted n s) (hinv : Inv tight s)
    (hstep : Step n m s a t) : Counted n t := by
  cases hstep with
  | wait | acceptFail => exact ⟨h.pool, h.workers, h.count⟩
  | accept hmain _ _ hclosed =>
    refine h.set (τ := .main) rfl main_mem main_workers ?_
    rw [hmain]
    simp only [Server.accept, Server.setThread, Finset.card_insert_of_notMem hclosed, ahead, Stage.ahead]
    omega
  | checkCount hst =>
    refine h.quiet (τ := .main) rfl main_mem main_workers rfl rfl ?_
    rw [hst]
    split <;> rfl
  | refuse hst =>
    have hp := hinv.holder hst trivial
    have hcard := Finset.card_erase_add_one (hp.opened.mpr (by rintro ⟨⟩))
    refine h.set (τ := .main) rfl main_mem main_workers ?_
    rw [hst]
    simp only [Server.close, Server.setThread, ahead, Stage.ahead]
    omega
  | init hst => exact h.init hst
  | @next _ kind _ hmain _ =>
    refine h.quiet (τ := .main) rfl main_mem main_workers rfl rfl ?_
    rw [hmain]
    cases kind <;> rfl
  | read hst _ =>
    refine h.quiet (τ := .main) rfl main_mem main_workers rfl rfl ?_
    rw [hst]
    split <;> rfl
  | append hst =>
    refine h.quiet (τ := .main) rfl main_mem main_workers rfl rfl ?_
    rw [hst]
    rfl
  | @write fd _ _ r hst _ _ =>
    refine h.quiet (τ := .main) (o := if r.ret then none else some (fd, .closing .check)) ?_ main_mem
      main_workers ?_ ?_ ?_
    · cases r.armed <;> rfl
    · cases r.armed <;> rfl
    · cases r.armed <;> rfl
    · rw [hst]
      split <;> rfl
  | mainClose hst | workerClose hst => exact h.closing hinv hst
  | take hw hst _ =>
    refine h.quiet rfl ?_ ?_ rfl rfl ?_
    · exact Finset.mem_insert_of_mem (Finset.mem_image_of_mem _ (Finset.mem_range.mpr hw))
    · rintro _ _ _ - ⟨⟩
      trivial
    · rw [hst]
      rfl
  | processRead hst _ =>
    refine h.quiet rfl (h.mem hst) ?_ rfl rfl ?_
    · rintro _ _ _ - ⟨⟩
      split <;> trivial
    · rw [hst]
      split <;> rfl
  | processWrite hst =>
    refine h.quiet rfl (h.mem hst) ?_ rfl rfl ?_
    · rintro _ _ _ - ⟨⟩
      split <;> trivial
    · rw [hst]
      split <;> rfl
  | modfd hst | modfdClosed hst =>
    refine h.quiet rfl (h.mem hst) (by rintro _ _ _ _ ⟨⟩) rfl rfl ?_
    rw [hst]
    rfl

-- ---------------------------------------------------------------------------
-- Settled states
-- ---------------------------------------------------------------------------

theorem mem_clients : fd ∈ s.clients ↔
    fd ∈ s.opened ∧ s.threads .main ≠ some (fd, .accepted) ∧ s.threads .main ≠ some (fd, .refuse) := by
  unfold Server.clients
  split
  · next x hst => simp [hst, eq_comm, and_comm]
  · next x hst => simp [hst, eq_comm, and_comm]
  · next h₁ h₂ => exact ⟨fun h => ⟨h, h₁ fd, h₂ fd⟩, And.left⟩

/-- The clients are those whose number has an object. -/
theorem At.mem_clients {tight : Prop} {p : Phase} (h : At tight s fd p) (hc : Counted n s)
    (hsettled : Settled s) : fd ∈ s.clients ↔ p.Live := by
  rw [WebServer.mem_clients, h.opened]
  cases p with
  | closed => simp [Phase.Live]
  | held τ st =>
    have hst := h.threads
    have hinit := (hsettled _ _ _ hst).1
    cases τ with
    | main =>
      rw [hst]
      cases st with
      | accepted | refuse => simp [Phase.Live, Stage.Fresh]
      | init i => exact absurd rfl (hinit i)
      | _ => simp [Phase.Live, Stage.Fresh]
    | worker w =>
      have hpool := hc.workers _ _ _ hst
      have hlive : ¬ st.Fresh := by
        cases st with
        | accepted | refuse | init => exact hpool.elim
        | _ => exact id
      refine ⟨fun _ => hlive, fun _ => ⟨(by rintro ⟨⟩), fun hmain => ?_, fun hmain => ?_⟩⟩
      · cases h.of_threads hmain trivial
      · cases h.of_threads hmain trivial
  | _ =>
    refine ⟨fun _ => trivial, fun _ => ⟨(by rintro ⟨⟩), fun hmain => ?_, fun hmain => ?_⟩⟩
    · cases h.of_threads hmain trivial
    · cases h.of_threads hmain trivial

theorem Settled.ahead_worker (hsettled : Settled s) (hc : Counted n s) (w : Nat) :
    ahead (s.threads (.worker w)) = 0 := by
  cases hst : s.threads (.worker w) with
  | none => rfl
  | some st =>
    obtain ⟨fd, st⟩ := st
    have hpool := hc.workers _ _ _ hst
    have hclosing := (hsettled _ _ _ hst).2
    cases st with
    | closing c => exact absurd rfl (hclosing c)
    | processRead | processWrite | modfd | modfdClosed => rfl
    | _ => exact hpool.elim

/-- Between `accept` and `init`, the count is behind by one. -/
theorem Settled.card_clients {tight : Prop} (hsettled : Settled s) (hinv : Inv tight s) :
    (s.clients.card : Int) = s.opened.card + ahead (s.threads .main) := by
  have herase : ∀ {fd st}, s.threads .main = some (fd, st) → st.Holds →
      ((s.opened.erase fd).card : Int) + 1 = s.opened.card := by
    intro fd st hst hholds
    have hcard := Finset.card_erase_add_one ((hinv.holder hst hholds).opened.mpr nofun)
    omega
  unfold Server.clients
  split
  · next hst =>
    have := herase hst trivial
    rw [hst, ahead, Stage.ahead]
    omega
  · next hst =>
    have := herase hst trivial
    rw [hst, ahead, Stage.ahead]
    omega
  · next h₁ h₂ =>
    cases hst : s.threads .main with
    | none => rw [ahead, Int.add_zero]
    | some st =>
      obtain ⟨fd, st⟩ := st
      obtain ⟨hinit, hclosing⟩ := hsettled _ _ _ hst
      rw [ahead]
      cases st with
      | accepted => exact absurd hst (h₁ fd)
      | refuse => exact absurd hst (h₂ fd)
      | init i => exact absurd rfl (hinit i)
      | closing c => exact absurd rfl (hclosing c)
      | _ => exact (Int.add_zero _).symm

theorem Settled.count (hsettled : Settled s) (hc : Counted n s) :
    s.userCount = s.opened.card + ahead (s.threads .main) := by
  have hnot : Thread.main ∉ (Finset.range n).image Thread.worker := by simp
  have hzero : ∑ τ ∈ (Finset.range n).image Thread.worker, ahead (s.threads τ) = 0 := by
    refine Finset.sum_eq_zero fun τ hτ => ?_
    obtain ⟨w, -, rfl⟩ := Finset.mem_image.mp hτ
    exact hsettled.ahead_worker hc w
  rw [hc.count, poolThreads, Finset.sum_insert hnot, hzero, Int.add_zero]

theorem Inv.consistent {tight : Prop} (hinv : Inv tight s) (hc : Counted n s) : Consistent s where
  sockfd hsettled fd hfd := by
    obtain ⟨p, hp⟩ := hinv fd
    exact (hp.live ((hp.mem_clients hc hsettled).mp hfd)).1
  others hsettled fd hin hfd := by
    obtain ⟨p, hp⟩ := hinv fd
    rcases hp.dead (mt (hp.mem_clients hc hsettled).mpr hfd) hin with hsock | ⟨-, τ, hτ⟩
    · exact hsock
    · exact absurd rfl ((hsettled _ _ _ hτ).2 _)
  count hsettled := by
    rw [hsettled.count hc, hsettled.card_clients hinv]
  closes fd := by
    obtain ⟨p, hp⟩ := hinv fd
    rw [← hp.tally]
    simp only [hp.opened, ne_eq, ite_not]

/-- In every run that does not reuse a number too early, the objects and the count agree
    with the open descriptors whenever no thread is inside `init` or `close_conn`, and a
    number is closed as often as it was accepted, but for an open one. -/
theorem reachable_consistent {users : Int → HttpConn} {es : List Action}
    (hrun : Run (fun s a t => Step n m s a t ∧ ¬ Reuses s a) (.start users) es s) :
    Consistent s := by
  have hinv : Inv False s ∧ Counted n s := by
    refine Run.invariant (I := fun s => Inv False s ∧ Counted n s) ?_ hrun
      ⟨start_inv users, start_counted users⟩
    rintro s a t ⟨hinv, hc⟩ ⟨hstep, hreuses⟩
    exact ⟨hinv.step hstep hreuses nofun, hc.step hinv hstep⟩
  exact hinv.1.consistent hinv.2

/-- Only a worker can meet a number too early. -/
theorem not_reuses_of_idle (hidle : ∀ w, s.threads (.worker w) = none) : ¬ Reuses s a := by
  cases a with
  | main =>
    rintro ⟨fd, hst, τ, hτ⟩
    cases τ with
    | main => cases hst.symm.trans hτ
    | worker w => cases (hidle w).symm.trans hτ
  | worker w =>
    rintro ⟨fd, hst, -⟩
    cases (hidle w).symm.trans hst
  | _ => exact id

theorem idle_step (hidle : ∀ w, s.threads (.worker w) = none) (hstep : Step n m s a t)
    (ha : ∀ w, a ≠ .take w) (w : Nat) : t.threads (.worker w) = none := by
  cases hstep with
  | take => exact absurd rfl (ha _)
  | processRead hst | processWrite hst | workerClose hst | modfd hst | modfdClosed hst =>
    cases (hidle _).symm.trans hst
  | @init _ i => cases i <;> exact hidle w
  | @mainClose _ c => cases c <;> exact hidle w
  | @write _ _ _ r => cases r.armed <;> exact hidle w
  | _ => exact hidle w

/-- The main loop alone reuses no number too early. -/
theorem idle_run {es : List Action} (hrun : Run (Step n m) s es t)
    (hidle : ∀ w, s.threads (.worker w) = none) (hes : ∀ w, .take w ∉ es) :
    Run (fun s a t => Step n m s a t ∧ ¬ Reuses s a) s es t := by
  induction hrun with
  | nil s => exact .nil s
  | cons hstep _ ih =>
    refine .cons ⟨hstep, not_reuses_of_idle hidle⟩ (ih ?_ fun w hw => hes w (.tail _ hw))
    exact idle_step hidle hstep fun w ha => hes w (ha ▸ List.mem_cons_self ..)

-- ---------------------------------------------------------------------------
-- A worker and its connection
-- ---------------------------------------------------------------------------

/-- The request of `fd` is queued, and a worker works on it, up to `process_write`. -/
theorem process_run (s : Server) (fd : Int) (w : Nat) (fs : FileSystem) {c : HttpConn} {ret : HttpCode}
    (hmain : s.threads .main = some (fd, .append)) (hidle : s.threads (.worker w) = none) (hw : w < n)
    (hqueue : s.workqueue = []) (hread : (s.users fd).processRead fs = .ok (c, ret)) (hret : ret ≠ .noRequest) :
    Run (fun s a t => Step n m s a t ∧ ¬ Reuses s a) s [.main, .take w, .processRead w fs, .worker w]
      { s with
        users := Function.update s.users fd (c.processWrite ret).1
        threads := Function.update (Function.update s.threads .main none) (.worker w)
          (some (fd, if (c.processWrite ret).2 then .modfd .epollout else .closing .check)) } := by
  refine .cons ⟨.append hmain, ?_⟩ (.cons ⟨@Step.take _ _ _ w fd [] hw ?_ ?_, id⟩
    (.cons ⟨@Step.processRead _ _ _ w fd fs c ret ?_ ?_, id⟩
      (.cons ⟨@Step.processWrite _ _ _ w fd ret ?_, ?_⟩ (Run.nil_iff.mpr ?_))))
  · rintro ⟨x, hx, -⟩
    cases hmain.symm.trans hx
  · simpa [Server.setThread] using hidle
  · simp [hqueue]
  · simp [Server.setThread]
  · simpa [Server.setThread] using hread
  · simp [Server.setThread, hret]
  · simp [Reuses, Server.setThread, hret]
  · simp [Server.setThread, Server.setUser, hqueue, Function.update_idem]

/-- The worker has prepared an answer, and has it reported when it can be written. -/
theorem modfd_run (s : Server) (fd : Int) (w : Nat) (ev : Interest)
    (hst : s.threads (.worker w) = some (fd, .modfd ev)) (hsock : (s.users fd).sockfd = fd)
    (hepoll : s.epoll fd ≠ none) :
    Run (fun s a t => Step n m s a t ∧ ¬ Reuses s a) s [.worker w]
      { s with
        epoll := Function.update s.epoll fd (some (some ev))
        threads := Function.update s.threads (.worker w) none } := by
  refine .cons ⟨.modfd hst, ?_⟩ (Run.nil_iff.mpr ?_)
  · simp [Reuses, hst]
  · simp [Server.setThread, Server.modfd, hsock, hepoll]

/-- A thread closes the descriptor of its object, and is about to reset it. -/
theorem close_run (s : Server) (fd : Int) (w : Nat) (hst : s.threads (.worker w) = some (fd, .closing .check))
    (hsock : (s.users fd).sockfd = fd) (hfd : fd ≠ -1) :
    Run (fun s a t => Step n m s a t ∧ ¬ Reuses s a) s [.worker w, .worker w, .worker w]
      { s.close fd with
        threads := Function.update s.threads (.worker w) (some (fd, .closing .reset)) } := by
  refine .cons ⟨.workerClose hst, ?_⟩ (.cons ⟨@Step.workerClose _ _ _ w fd .epollDel ?_, ?_⟩
    (.cons ⟨@Step.workerClose _ _ _ w fd (.close fd) ?_, ?_⟩ (Run.nil_iff.mpr ?_)))
  · simp [Reuses, hst]
  · simp [Server.setThread, Server.closeStep, hsock, hfd, afterClose]
  · simp [Reuses, Server.setThread, Server.closeStep, hsock, hfd, afterClose]
  · simp [Server.setThread, Server.closeStep, hsock, afterClose]
  · simp [Reuses, Server.setThread, Server.closeStep, hsock, afterClose]
  · simp [Server.setThread, Server.closeStep, hsock, hfd, afterClose, Server.close, Server.epollDel]

/-- It resets the object, and leaves it. -/
theorem reset_run (s : Server) (fd : Int) (w : Nat) (hst : s.threads (.worker w) = some (fd, .closing .reset))
    (hepoll : s.epoll (-1) = none) :
    Run (fun s a t => Step n m s a t ∧ ¬ Reuses s a) s [.worker w, .worker w, .worker w]
      { s.setSockfd fd (-1) with
        userCount := s.userCount - 1
        threads := Function.update s.threads (.worker w) none } := by
  refine .cons ⟨.workerClose hst, ?_⟩ (.cons ⟨@Step.workerClose _ _ _ w fd .count ?_, ?_⟩
    (.cons ⟨@Step.modfdClosed _ _ _ w fd ?_, ?_⟩ (Run.nil_iff.mpr ?_)))
  · simp [Reuses, hst]
  · simp [Server.setThread, Server.closeStep, afterClose]
  · simp [Reuses, Server.setThread, Server.closeStep, afterClose]
  · simp [Server.setThread, Server.closeStep, afterClose]
  · simp [Reuses, Server.setThread, Server.closeStep, afterClose, Server.setSockfd, Server.setUser, hepoll]
  · simp [Server.setThread, Server.closeStep, afterClose, Server.setSockfd, Server.setUser, Server.modfd, hepoll]

/-- A request for a file that is empty. -/
def emptyFile : FileSystem where
  stat _ := some ⟨true, false, 0⟩
  mmap _ _ := -1

/-- A request for a file that is not there. -/
def noFile : FileSystem where
  stat _ := none
  mmap _ _ := -1

def getRequest : List HttpConn.Recv :=
  [.data (CString.ascii "GET / HTTP/1.1\r\n\r\n"), .eagain]

/-- The object of descriptor 5, just initialised, with its request. -/
def requested (c : HttpConn) : HttpConn :=
  ((c.initSock 5).read getRequest).1

/-- A worker cannot answer the first request. The number comes back, and the next one is answered. -/
theorem requests_served : ∃ c d,
    (requested .blank).processRead emptyFile = .ok (c, .fileRequest) ∧ (c.processWrite .fileRequest).2 = false ∧
    (requested { (c.processWrite .fileRequest).1 with sockfd := -1 }).processRead noFile = .ok (d, .noResource) ∧
    (d.processWrite .noResource).2 = true := by
  have hresult : ((requested .blank).processRead emptyFile).toOption.map
      (fun r => (r.2, (r.1.processWrite .fileRequest).2,
        ((requested { (r.1.processWrite .fileRequest).1 with sockfd := -1 }).processRead noFile).toOption.map
          fun q => (q.2, (q.1.processWrite .noResource).2))) =
      some (HttpCode.fileRequest, false, some (HttpCode.noResource, true)) := by
    decide +kernel
  obtain ⟨⟨c, ret⟩, hrun, hfirst⟩ := Memory.ok_of_toOption hresult
  obtain ⟨rfl, hpair⟩ := Prod.mk.inj hfirst
  obtain ⟨hwrite, hsecond⟩ := Prod.mk.inj hpair
  obtain ⟨⟨d, ret'⟩, hrun', hpair'⟩ := Memory.ok_of_toOption hsecond
  obtain ⟨rfl, hwrite'⟩ := Prod.mk.inj hpair'
  exact ⟨c, d, hrun, hwrite, hrun', hwrite'⟩

theorem getRequest_read (c : HttpConn) : ((c.initSock 5).read getRequest).2 = true := by
  rfl

/-- A server at rest behind a client that connects as 5 and sends its request, on which a worker
    works. -/
def Server.visited (s : Server) (c : HttpConn) (ret : HttpCode) : Server :=
  { s.connected 5 with
    users := Function.update s.users 5 (c.processWrite ret).1
    epoll := Function.update s.epoll 5 (some none)
    threads := Function.update (fun _ => none) (.worker 0)
      (some (5, if (c.processWrite ret).2 then .modfd .epollout else .closing .check)) }

theorem visit_run (s : Server) (fs : FileSystem) {c : HttpConn} {ret : HttpCode} (hidle : s.threads = fun _ => none)
    (hevents : s.events = []) (hqueue : s.workqueue = []) (hfd : 5 ∉ s.opened) (hepoll : s.epoll 5 = none)
    (hcount : s.userCount < maxFd) (hn : 0 < n) (hread : (requested (s.users 5)).processRead fs = .ok (c, ret))
    (hret : ret ≠ .noRequest) :
    ∃ es, Run (fun s a t => Step n m s a t ∧ ¬ Reuses s a) s es (s.visited c ret) := by
  have huser : (s.connected 5).users 5 = (s.users 5).initSock 5 := by
    simp [Server.connected]
  have hthreads : ∀ w, s.threads (.worker w) = none := by
    simp [hidle]
  have hconnect := connect_run (n := n) (m := m) s 5 (by simp [hidle]) hevents (by decide) hfd hepoll hcount
  have hrequest := request_run (n := n) (m := m) (s.connected 5) 5 getRequest (by simp [Server.connected, hidle])
    hevents (by simp [Server.connected]) (by rw [huser]; exact Finset.mem_insert_self ..)
    (by rw [huser]; exact getRequest_read _)
  rw [huser] at hrequest
  have hprocess := process_run (n := n) (m := m) { s.connected 5 with
    users := Function.update (s.connected 5).users 5 (requested (s.users 5))
    epoll := Function.update (s.connected 5).epoll 5 (some none)
    threads := Function.update (s.connected 5).threads .main (some (5, .append)) } 5 0 fs
    (by simp) (by simp [Server.connected, hidle]) hn hqueue (by simpa using hread) hret
  suffices h : ∃ es t, Run (fun s a t => Step n m s a t ∧ ¬ Reuses s a) s es t ∧ t = s.visited c ret by
    obtain ⟨es, t, hrun, rfl⟩ := h
    exact ⟨es, hrun⟩
  refine ⟨_, _, Run.append_iff.mpr ⟨_, idle_run hconnect hthreads (by simp [connect]),
    Run.append_iff.mpr ⟨_, idle_run hrequest hthreads (by simp [request]), hprocess⟩⟩, ?_⟩
  simp [Server.visited, Server.connected, hidle]

theorem requested_sockfd {c d : HttpConn} {fs : FileSystem} {ret : HttpCode}
    (hread : (requested c).processRead fs = .ok (d, ret)) : (d.processWrite ret).1.sockfd = 5 := by
  rw [HttpConn.processWrite_sockfd, HttpConn.processRead_sockfd hread, requested, HttpConn.read_sockfd]
  rfl

/-- A worker fails to answer the first client, and closes its descriptor. -/
theorem closing_run {c : HttpConn} (hread : (requested .blank).processRead emptyFile = .ok (c, .fileRequest))
    (hwrite : (c.processWrite .fileRequest).2 = false) :
    ∃ es s, Run (fun s a t => Step defaultThreadNumber defaultMaxRequests s a t ∧ ¬ Reuses s a)
      (.start fun _ => .blank) es s ∧ s = { ((Server.start fun _ => .blank).visited c .fileRequest).close 5 with
        threads := Function.update (fun _ => none) (.worker 0) (some (5, .closing .reset)) } := by
  obtain ⟨es, hrun⟩ := @visit_run defaultThreadNumber defaultMaxRequests (.start fun _ => .blank) emptyFile
    c .fileRequest rfl rfl rfl (by simp [Server.start]) rfl (by decide) (by decide) hread (by decide)
  have hclose := @close_run defaultThreadNumber defaultMaxRequests ((Server.start fun _ => .blank).visited c .fileRequest)
    5 0 (by simp [Server.visited, hwrite]) (by simp [Server.visited, requested_sockfd hread]) (by decide)
  refine ⟨_, _, Run.append_iff.mpr ⟨_, hrun, hclose⟩, ?_⟩
  simp [Server.visited, Function.update_idem]

/-- It gets to the end of `process`, and the number is free. -/
theorem freed_run {c : HttpConn} (hread : (requested .blank).processRead emptyFile = .ok (c, .fileRequest))
    (hwrite : (c.processWrite .fileRequest).2 = false) :
    ∃ es s, Run (fun s a t => Step defaultThreadNumber defaultMaxRequests s a t ∧ ¬ Reuses s a)
      (.start fun _ => .blank) es s ∧
    s.threads = (fun _ => none) ∧ s.events = [] ∧ s.workqueue = [] ∧ s.opened = ∅ ∧ s.epoll = (fun _ => none) ∧
    s.userCount = 0 ∧ s.users 5 = { (c.processWrite .fileRequest).1 with sockfd := -1 } ∧
    s.accepted 5 = 1 ∧ s.closed 5 = 1 := by
  obtain ⟨es, s, hrun, rfl⟩ := closing_run hread hwrite
  have hreset := @reset_run defaultThreadNumber defaultMaxRequests
    { ((Server.start fun _ => .blank).visited c .fileRequest).close 5 with
      threads := Function.update (fun _ => none) (.worker 0) (some (5, .closing .reset)) } 5 0
    (by simp) (by simp [Server.visited, Server.connected, Server.start, Server.close])
  refine ⟨_, _, Run.append_iff.mpr ⟨_, hrun, hreset⟩, ?_, rfl, rfl, ?_, ?_, ?_, ?_, rfl, rfl⟩
  · simp
  · simp [Server.visited, Server.connected, Server.start, Server.close, Server.setSockfd, Server.setUser]
  · simp [Server.visited, Server.connected, Server.start, Server.close, Server.setSockfd, Server.setUser]
  · simp [Server.visited, Server.connected, Server.start, Server.close]
  · simp [Server.visited, Server.close, Server.setSockfd, Server.setUser]

/-- A client connects as 5, and a worker fails to answer it and closes the descriptor. The
    next client gets the number when the worker is done with it, and has its answer. -/
theorem reachable_consistent_reused : ∃ es s,
    Run (fun s a t => Step defaultThreadNumber defaultMaxRequests s a t ∧ ¬ Reuses s a)
      (.start fun _ => .blank) es s ∧
    s.clients = {5} ∧ s.accepted 5 = 2 ∧ s.closed 5 = 1 ∧ s.epoll 5 = some (some .epollout) ∧ Consistent s := by
  obtain ⟨c, d, hfirst, hfail, hsecond, hwrite⟩ := requests_served
  obtain ⟨es, s, hrun, hthreads, hevents, hqueue, hopened, hepoll, hcount, huser, haccepted, hclosed⟩ :=
    freed_run hfirst hfail
  obtain ⟨es', hvisit⟩ := @visit_run defaultThreadNumber defaultMaxRequests s noFile d .noResource hthreads hevents
    hqueue (by simp [hopened]) (by simp [hepoll]) (by simp [hcount, maxFd]) (by decide) (by rw [huser]; exact hsecond)
    (by decide)
  have hmodfd := @modfd_run defaultThreadNumber defaultMaxRequests (s.visited d .noResource) 5 0 .epollout
    (by simp [Server.visited, hwrite]) (by simp [Server.visited, requested_sockfd hsecond])
    (by simp [Server.visited])
  have hall := Run.append_iff.mpr ⟨_, hrun, Run.append_iff.mpr ⟨_, hvisit, hmodfd⟩⟩
  refine ⟨_, _, hall, ?_, ?_, ?_, ?_, reachable_consistent hall⟩
  · simp [Server.clients, Server.visited, Server.connected, hopened]
  · simp [Server.visited, Server.connected, haccepted]
  · simp [Server.visited, Server.connected, hclosed]
  · simp

-- ---------------------------------------------------------------------------
-- A number that comes back too early
-- ---------------------------------------------------------------------------

/-- A worker has closed descriptor 5 and not yet set `m_sockfd`. The main loop accepts a
    client as 5 and gives the number to the object, and then the worker sets it to -1. -/
theorem early_accept_detaches : ¬ ∀ users es s,
    Run (Step defaultThreadNumber defaultMaxRequests) (.start users) es s → Consistent s := by
  intro hall
  obtain ⟨c, d, hread, hwrite, -, -⟩ := requests_served
  obtain ⟨es, s, hrun, hs⟩ := closing_run hread hwrite
  have hconnect := @connect_run defaultThreadNumber defaultMaxRequests s 5 (by simp [hs])
    (by simp [hs, Server.visited, Server.connected, Server.start, Server.close]) (by decide)
    (by simp [hs, Server.close]) (by simp [hs, Server.close])
    (by simp [hs, Server.visited, Server.connected, Server.start, Server.close, maxFd])
  have hreset := @reset_run defaultThreadNumber defaultMaxRequests (s.connected 5) 5 0
    (by simp [hs, Server.connected])
    (by simp [hs, Server.visited, Server.connected, Server.start, Server.close])
  have hcons := hall _ _ _ (Run.append_iff.mpr ⟨_, hrun.of_and, Run.append_iff.mpr ⟨_, hconnect, hreset.of_and⟩⟩)
  have hidle : ∀ τ, (Function.update s.threads (.worker 0) none) τ = none := by
    intro τ
    simp [hs]
  have hfive := hcons.sockfd (fun τ fd st hst => by cases (hidle τ).symm.trans hst) 5 (by
    rw [mem_clients]
    exact ⟨Finset.mem_insert_self .., by simp [Server.connected, hs], by simp [Server.connected, hs]⟩)
  simp [Server.connected, Server.setSockfd, Server.setUser] at hfive

end WebServer
