-- SUMMARY: Every step of the web server keeps each number in a phase, while no number is reused too early.
import LinuxLearning.HttpConn.Frame
import LinuxLearning.WebServer.Ownership

/-!
# Interleavings

Two things can go wrong between the threads. A number is reused too early if `init` gives
it to an object that a worker is about to reset, or if the last `modfd` of `process` arms
it for a connection that another thread holds. A connection is lost if the queue refuses
it.
-/

namespace WebServer

open Http

/-- The step gives a number to an object that a thread is about to reset, or arms it behind
    the back of its holder. -/
def Reuses (s : Server) : Action → Prop
  | .main => ∃ fd, s.threads .main = some (fd, .init .sock) ∧ s.Resets fd
  | .worker w => ∃ fd, s.threads (.worker w) = some (fd, .modfdClosed) ∧
      s.epoll (s.users fd).sockfd = some none
  | _ => False

/-- The queue refuses the connection, or `accept` returns the number of an object that a
    worker has not left. -/
def Loses (maxRequests : Nat) (s : Server) : Action → Prop
  | .main => ∃ fd, s.threads .main = some (fd, .append) ∧ maxRequests < s.workqueue.length
  | .accept connfd => ∃ w st, s.threads (.worker w) = some (connfd, st)
  | _ => False

variable {tight : Prop} {s t : Server} {p : Phase} {fd x : Int} {τ : Thread} {st : Stage}
  {o : Option (Int × Stage)} {n m : Nat} {events : List Event}

-- ---------------------------------------------------------------------------
-- The main loop
-- ---------------------------------------------------------------------------

theorem Inv.wait (h : Inv tight s) (hmain : s.threads .main = none) (hevents : s.events = [])
    (hreports : Reports s.epoll events) :
    Inv tight { s with events := events, epoll := disarm s.epoll events } := by
  intro fd
  obtain ⟨p, hp⟩ := h fd
  obtain ⟨-, hnodup, hknown⟩ := hreports
  by_cases hfd : some fd ∈ events.map Event.sockfd
  · obtain ⟨ev, hev⟩ : ∃ ev, s.epoll fd = some (some ev) := by
      obtain ⟨e, he, hsock⟩ := List.mem_map.mp hfd
      cases e with
      | listen => cases hsock
      | client sockfd kind =>
        cases hsock
        obtain ⟨ev, hev, -⟩ := hknown _ _ he
        exact ⟨ev, hev⟩
    have hreg := hp.registers
    rw [hev] at hreg
    obtain rfl := hreg.armed.resolve_right fun ⟨st, hst⟩ => hp.idle hmain st hst
    refine ⟨.reported, hp.move trivial ⟨rfl, rfl, rfl, rfl, rfl⟩ (τ := .main) (o := none)
      (Function.update_eq_self_iff.mpr hmain.symm).symm nofun nofun (by simp) trivial ?_ hp.queued ?_
      nofun nofun⟩
    · exact List.count_eq_one_of_mem hnodup hfd
    · exact if_pos hfd
  · refine ⟨p, hp.congr { Same.refl s fd with epoll := if_neg hfd, reported := ?_ }⟩
    rw [hevents]
    exact List.count_eq_zero_of_not_mem hfd

theorem Inv.next {kind : EventKind} (h : Inv tight s) (hmain : s.threads .main = none)
    (hevents : s.events = .client fd kind :: events) :
    Inv tight { s.setThread .main (some (fd, dispatch kind)) with events := events } := by
  obtain ⟨p, hp⟩ := h fd
  have hcount := hp.reported
  rw [hevents, List.map_cons, Event.sockfd, List.count_cons_self] at hcount
  obtain ⟨rfl, hzero⟩ : p = .reported ∧ (events.map Event.sockfd).count (some fd) = 0 := by
    split at hcount
    · exact ⟨‹_›, by omega⟩
    · omega
  refine h.of (hp.acquire (dispatch kind) (.inl rfl) ⟨rfl, rfl, rfl, rfl, rfl⟩ rfl ?_ ?_ hzero hp.queued ?_ ?_)
    fun x hx => ?_
  · cases kind <;> trivial
  · cases kind <;> exact id
  · have hreg : s.epoll fd = some none := hp.registers
    cases kind with
    | hup => exact .inl hreg
    | epollin | epollout => exact hreg
  · cases kind <;> exact nofun
  · refine Same.trans (t := s.setThread .main (some (fd, dispatch kind)))
      (.setThread (hmain ▸ onlyAt_none) onlyAt_some hx)
      { Same.refl _ x with reported := ?_ }
    rw [Server.setThread, hevents, List.map_cons, List.count_cons_of_ne]
    simpa [Event.sockfd] using hx.symm

theorem Inv.acceptFail (h : Inv tight s) (hevents : s.events = .listen :: events) :
    Inv tight { s with events := events } := by
  intro fd
  obtain ⟨p, hp⟩ := h fd
  refine ⟨p, hp.congr { Same.refl s fd with reported := ?_ }⟩
  rw [hevents, List.map_cons, List.count_cons_of_ne (by simp [Event.sockfd])]

theorem Inv.accept (h : Inv tight s) (hmain : s.threads .main = none)
    (hevents : s.events = .listen :: events) (hnonneg : 0 ≤ fd) (hclosed : fd ∉ s.opened)
    (halone : tight → ∀ τ st, s.threads τ ≠ some (fd, st)) :
    Inv tight { (s.accept fd).setThread .main (some (fd, .accepted)) with events := events } := by
  obtain ⟨p, hp⟩ := h fd
  obtain rfl : p = .closed := by simpa using mt hp.opened.mpr hclosed
  have hcount : ∀ x, (events.map Event.sockfd).count (some x) =
      (s.events.map Event.sockfd).count (some x) := by
    intro x
    rw [hevents, List.map_cons, List.count_cons_of_ne (by simp [Event.sockfd])]
  refine h.of (p := .held .main .accepted) (hp.remain (τ := .main) (o := some (fd, .accepted)) id
    (fun hlive => hlive trivial) rfl (by simp [hmain]) nofun ?_ ?_ rfl rfl ?_ ?_ hp.queued hp.registers
    hnonneg ?_ ?_) fun x hx => ?_
  · rintro _ ⟨⟩
    trivial
  · intro τ m
    simp [eq_comm]
  · simp [Server.accept, Server.setThread]
  · exact (hcount fd).trans hp.reported
  · have htally := hp.tally
    simp only [if_true, Nat.add_zero] at htally
    simp [Server.accept, Server.setThread, htally]
  · intro htight _ τ m hm
    exact absurd hm (halone htight τ m)
  · refine Same.trans (t := (s.accept fd).setThread .main (some (fd, .accepted)))
      (Same.trans (.accept hx) (.setThread ?_ onlyAt_some hx))
      { Same.refl _ x with reported := hcount x }
    exact (hmain ▸ onlyAt_none : OnlyAt fd (s.threads .main))

theorem Inv.checkCount (h : Inv tight s) (hst : s.threads .main = some (fd, .accepted))
    (hnew : st = .refuse ∨ st = .init .sock) : Inv tight (s.setThread .main (some (fd, st))) := by
  have hp := h.holder hst trivial
  have hreg : s.epoll fd = none := hp.registers
  refine h.of (p := .held .main st) (hp.remain (τ := .main) (o := some (fd, st))
    (fun hlive => hlive trivial) (fun hlive => hlive ?_) rfl (by simp [hst]) (by rintro _ _ ⟨⟩; rfl) ?_ ?_
    rfl rfl ?_ hp.reported hp.queued ?_ (hp.nonneg nofun) ?_ fun htight _ => hp.alone htight nofun)
    fun x hx => .setThread (hst ▸ onlyAt_some) onlyAt_some hx
  · rcases hnew with rfl | rfl <;> trivial
  · rintro _ ⟨⟩
    rcases hnew with rfl | rfl <;> trivial
  · intro τ m
    simp [eq_comm]
  · simpa [Server.setThread] using hp.opened
  · rcases hnew with rfl | rfl <;> exact hreg
  · simpa [Server.setThread] using hp.tally

theorem Inv.refuse (h : Inv tight s) (hst : s.threads .main = some (fd, .refuse)) :
    Inv tight ((s.close fd).setThread .main none) := by
  have hp := h.holder hst trivial
  refine h.of (p := .closed) (hp.remain (τ := .main) (o := none) (fun hlive => hlive trivial) id rfl
    (by simp [hst]) (by rintro _ _ ⟨⟩; rfl) nofun (by simp) rfl rfl ?_ hp.reported hp.queued
    (Function.update_self ..) (hp.nonneg nofun) ?_ fun _ hne => absurd rfl hne)
    fun x hx => Same.trans (.close hx) (.setThread ?_ onlyAt_none hx)
  · simp [Server.close, Server.setThread]
  · simpa [Server.close, Server.setThread] using hp.tally
  · exact (hst ▸ onlyAt_some : OnlyAt fd (s.threads .main))

/-- A statement of `init`. The first one must not meet a thread that resets the object. -/
theorem Inv.init {i : Opening} (h : Inv tight s) (hst : s.threads .main = some (fd, .init i))
    (hresets : i = .sock → ¬ s.Resets fd) :
    Inv tight ((s.initStep fd i).1.setThread .main ((s.initStep fd i).2.map fun i => (fd, .init i))) := by
  have hp := h.holder hst trivial
  have honly : OnlyAt fd (s.threads .main) := hst ▸ onlyAt_some
  cases i with
  | sock =>
    have hinited : ∀ x, x ≠ fd → Same (s.setSockfd fd fd) (s.initStep fd .sock).1 x := fun x hx =>
      { Same.refl (s.setSockfd fd fd) x with inited := Function.update_of_ne hx .. }
    exact h.of (hp.initSock (hresets rfl) rfl rfl rfl rfl rfl (Server.setSockfd_self ..)
      (Function.update_self ..) rfl rfl) fun x hx =>
        .trans (.trans (.setUser hx _) (hinited x hx)) (.setThread honly onlyAt_some hx)
  | add =>
    have hreg : s.epoll fd = none := hp.registers
    refine h.of (hp.advance (.init .count) id ⟨rfl, rfl, rfl, rfl, rfl⟩ rfl trivial id rfl rfl ?_
      (by rintro _ ⟨⟩)) fun x hx => Same.trans (.addfd hx) (.setThread honly onlyAt_some hx)
    have hopened : fd ∈ s.opened := hp.opened.mpr (by rintro ⟨⟩)
    exact ⟨rfl, .epollin, by simp [Server.addfd, Server.setThread, Server.initStep, hreg, hopened]⟩
  | count =>
    exact h.of (hp.advance (.init .fields) id ⟨rfl, rfl, rfl, rfl, rfl⟩ rfl trivial id rfl rfl
      hp.registers (by rintro _ ⟨⟩))
      fun x hx => Same.trans (t := { s with userCount := s.userCount + 1 }) { Same.refl s x with }
        (.setThread honly onlyAt_some hx)
  | fields =>
    have hsock : ((s.setUser fd (s.users fd).init).users fd).sockfd = (s.users fd).init.sockfd :=
      congrArg HttpConn.sockfd (s.setUser_self ..)
    exact h.of (p := .armed) (hp.release (τ := .main) id ⟨rfl, hsock, rfl, rfl, rfl⟩ rfl (.inl rfl) rfl
      hp.queued hp.registers.2 (by rintro _ ⟨⟩))
      fun x hx => Same.trans (.setUser hx _) (.setThread honly onlyAt_none hx)

theorem Inv.read {rs : List HttpConn.Recv} (h : Inv tight s)
    (hst : s.threads .main = some (fd, .read)) :
    Inv tight ((s.setUser fd ((s.users fd).read rs).1).setThread .main
      (some (fd, if ((s.users fd).read rs).2 then .append else .closing .check))) := by
  have hp := h.holder hst trivial
  have hreg : s.epoll fd = some none := hp.registers
  refine h.of (hp.advance (if ((s.users fd).read rs).2 then .append else .closing .check) id
    ⟨rfl, ?_, rfl, rfl, rfl⟩ rfl ?_ ?_ rfl rfl ?_ ?_)
    fun x hx => Same.trans (.setUser hx _) (.setThread (hst ▸ onlyAt_some) onlyAt_some hx)
  · exact (congrArg HttpConn.sockfd (Server.setUser_self ..)).trans (HttpConn.read_sockfd _ _)
  · split <;> trivial
  · split <;> exact id
  · split
    · exact hreg
    · exact .inl hreg
  · split <;> exact nofun

theorem Inv.append (h : Inv tight s) (hst : s.threads .main = some (fd, .append))
    (hroom : tight → s.workqueue.length ≤ m) :
    Inv tight { s.setThread .main none with
      workqueue := if m < s.workqueue.length then s.workqueue
        else s.workqueue ++ [fd] } := by
  have hp := h.holder hst trivial
  have honly : OnlyAt fd (s.threads .main) := hst ▸ onlyAt_some
  have hqueue : s.workqueue.count fd = 0 := hp.queued
  by_cases hfull : m < s.workqueue.length
  · rw [if_pos hfull]
    refine h.of (p := .lost) (hp.release id ⟨rfl, rfl, rfl, rfl, rfl⟩ rfl (.inr (.inr rfl)) rfl hqueue
      hp.registers fun htight => absurd (hroom htight) (Nat.not_le.mpr hfull))
      fun x hx => .setThread honly onlyAt_none hx
  · rw [if_neg hfull]
    refine h.of (p := .queued) (hp.release id ⟨rfl, rfl, rfl, rfl, rfl⟩ rfl (.inr (.inl rfl)) rfl ?_
      hp.registers nofun) fun x hx => Same.trans (t := s.setThread .main none)
        (.setThread honly onlyAt_none hx) { Same.refl _ x with queued := ?_ }
    · simp [hqueue]
    · rw [List.count_append, List.count_singleton, if_neg (by simpa using hx.symm)]
      rfl

theorem Inv.write {mem : Int → UInt8} {os : List Writev} {r : WriteCall} (h : Inv tight s)
    (hst : s.threads .main = some (fd, .write)) (hr : (s.users fd).write mem os = some r) :
    Inv tight (((r.armed.elim s (s.modfd (s.users fd).sockfd)).setUser fd r.conn).setThread .main
      (if r.ret then none else some (fd, .closing .check))) := by
  have hp := h.holder hst trivial
  have hreg : s.epoll fd = some none := hp.registers
  have hsock : (s.users fd).sockfd = fd := (hp.live id).1
  have hconn : r.conn.sockfd = (s.users fd).sockfd := HttpConn.write_sockfd hr
  have honly : OnlyAt fd (s.threads .main) := hst ▸ onlyAt_some
  rw [hsock]
  have hsame : ∀ x, x ≠ fd → Same s (r.armed.elim s (s.modfd fd)) x := by
    intro x hx
    cases r.armed with
    | none => exact .refl s x
    | some ev => exact .modfd hx ev
  have hthreads : (r.armed.elim s (s.modfd fd)).threads = s.threads := by
    cases r.armed <;> rfl
  have hkeeps : ∀ o, Keeps s
      (((r.armed.elim s (s.modfd fd)).setUser fd r.conn).setThread .main o) fd := by
    intro o
    cases r.armed <;>
      exact ⟨rfl, (congrArg HttpConn.sockfd (Server.setUser_self ..)).trans hconn, rfl, rfl, rfl⟩
  have hevents : (r.armed.elim s (s.modfd fd)).events = s.events := by
    cases r.armed <;> rfl
  have hqueue : (r.armed.elim s (s.modfd fd)).workqueue = s.workqueue := by
    cases r.armed <;> rfl
  have honly' : OnlyAt fd ((r.armed.elim s (s.modfd fd)).threads .main) := hthreads ▸ honly
  have hepoll : ∀ ev, r.armed = some ev →
      (r.armed.elim s (s.modfd fd)).epoll fd = some (some ev) := by
    intro ev hev
    simp [hev, Server.modfd, hreg]
  cases hret : r.ret with
  | true =>
    obtain ⟨ev, hev⟩ := HttpConn.write_armed hr hret
    refine h.of (p := .armed) (hp.release (τ := .main) id (hkeeps none) ?_ (.inl rfl) hevents ?_
      ⟨ev, hepoll ev hev⟩ (by rintro _ ⟨⟩))
      fun x hx => (hsame x hx).trans (.trans (.setUser hx _) (.setThread honly' onlyAt_none hx))
    · exact congrArg (Function.update · _ _) hthreads
    · exact (congrArg (List.count fd) hqueue).trans hp.queued
  | false =>
    refine h.of (hp.advance (.closing .check) id (hkeeps _) ?_ trivial id hevents hqueue ?_ (by rintro _ ⟨⟩))
      fun x hx => (hsame x hx).trans (.trans (.setUser hx _) (.setThread honly' onlyAt_some hx))
    · exact congrArg (Function.update · _ _) hthreads
    · refine .inr ⟨rfl, ?_⟩
      change (r.armed.elim s (s.modfd fd)).epoll fd ≠ none
      cases hev : r.armed with
      | none => simp [hreg]
      | some ev =>
        rw [← hev, hepoll ev hev]
        rintro ⟨⟩

-- ---------------------------------------------------------------------------
-- close_conn
-- ---------------------------------------------------------------------------

/-- A statement of `close_conn`, in any thread. -/
theorem Inv.closing {c : Closing} (h : Inv tight s) (hst : s.threads τ = some (fd, .closing c)) :
    Inv tight ((s.closeStep fd c).1.setThread τ (afterClose fd τ (s.closeStep fd c).2)) := by
  have honly : OnlyAt fd (s.threads τ) := hst ▸ onlyAt_some
  cases c with
  | check =>
    have hp := h.holder hst trivial
    have hsock : (s.users fd).sockfd ≠ -1 := by
      have := hp.nonneg nofun
      rw [(hp.live id).1]
      omega
    simp only [Server.closeStep, if_neg hsock, afterClose]
    exact h.of (hp.advance (.closing .epollDel) id ⟨rfl, rfl, rfl, rfl, rfl⟩ rfl trivial id rfl rfl
      hp.registers nofun) fun x hx => .setThread honly onlyAt_some hx
  | epollDel =>
    have hp := h.holder hst trivial
    simp only [Server.closeStep, (hp.live id).1, afterClose]
    refine h.of (hp.advance (.closing (.close fd)) id ⟨rfl, rfl, rfl, rfl, rfl⟩ rfl trivial id rfl
      rfl (Function.update_self ..) ?_)
      fun x hx => .trans (.epollDel hx) (.setThread honly onlyAt_some hx)
    rintro _ ⟨⟩
    rfl
  | close sockfd =>
    have hp := h.holder hst trivial
    obtain rfl := hp.captured _ _ rfl
    exact h.of (hp.close id) fun x hx => .trans (.close hx) (.setThread honly onlyAt_some hx)
  | reset =>
    obtain ⟨p, hp⟩ := h fd
    refine h.of (hp.drop hst id rfl ?_ rfl rfl rfl rfl rfl rfl hp.registers
      (fun hlive => absurd hlive (hp.resets ⟨τ, hst⟩)) fun _ _ => .inl ?_)
      fun x hx => .trans (.setUser hx _) (.setThread honly onlyAt_some hx)
    · rintro _ ⟨⟩
      exact ⟨id, nofun⟩
    · exact Server.setSockfd_self ..
  | count =>
    obtain ⟨p, hp⟩ := h fd
    have hnew : ∀ m, afterClose fd τ none = some (fd, m) → ¬ m.Holds ∧ m ≠ .closing .reset := by
      cases τ with
      | main => nofun
      | worker w =>
        rintro _ ⟨⟩
        exact ⟨id, nofun⟩
    have honly' : OnlyAt fd (afterClose fd τ none) := by
      cases τ with
      | main => exact onlyAt_none
      | worker w => exact onlyAt_some
    refine h.of (hp.drop hst id rfl hnew rfl rfl rfl rfl rfl rfl hp.registers (fun _ => rfl) ?_)
      fun x hx => Same.trans (t := { s with userCount := s.userCount - 1 }) { Same.refl s x with }
        (.setThread honly honly' hx)
    intro hdead hin
    refine (hp.dead hdead hin).imp_right fun hr => ⟨hr.1, resets_update rfl ?_ hr.2⟩
    exact fun heq => nomatch hst.symm.trans heq

-- ---------------------------------------------------------------------------
-- The workers
-- ---------------------------------------------------------------------------

theorem Inv.take {queue : List Int} (h : Inv tight s) (hst : s.threads τ = none)
    (hqueue : s.workqueue = fd :: queue) :
    Inv tight { s.setThread τ (some (fd, .processRead)) with workqueue := queue } := by
  obtain ⟨p, hp⟩ := h fd
  have hcount := hp.queued
  rw [hqueue, List.count_cons_self] at hcount
  obtain ⟨rfl, hzero⟩ : p = .queued ∧ queue.count fd = 0 := by
    split at hcount
    · exact ⟨‹_›, by omega⟩
    · omega
  refine h.of (hp.acquire .processRead (.inr rfl) ⟨rfl, rfl, rfl, rfl, rfl⟩ rfl trivial id hp.reported hzero
    hp.registers nofun)
    fun x hx => Same.trans (t := s.setThread τ (some (fd, .processRead)))
      (.setThread (hst ▸ onlyAt_none) onlyAt_some hx) { Same.refl _ x with queued := ?_ }
  rw [Server.setThread, hqueue, List.count_cons_of_ne hx.symm]

/-- A worker leaves the data of the request or of the response in the object, and goes on
    with the connection. -/
theorem Inv.work {c : HttpConn} {st' : Stage} (h : Inv tight s) (hst : s.threads τ = some (fd, st))
    (hold : st = .processRead ∨ ∃ ret, st = .processWrite ret)
    (hsock : c.sockfd = (s.users fd).sockfd)
    (hnew : st' = .closing .check ∨ (∃ ev, st' = .modfd ev) ∨ ∃ ret, st' = .processWrite ret) :
    Inv tight ((s.setUser fd c).setThread τ (some (fd, st'))) := by
  have hp : At tight s fd (.held τ st) := h.holder hst (by
    rcases hold with rfl | ⟨_, rfl⟩ <;> trivial)
  have hreg : s.epoll fd = some none := by
    rcases hold with rfl | ⟨_, rfl⟩ <;> exact hp.registers
  have hlive : ¬ st.Fresh := by
    rcases hold with rfl | ⟨_, rfl⟩ <;> exact id
  refine h.of (hp.advance st' hlive ⟨rfl, ?_, rfl, rfl, rfl⟩ rfl ?_ ?_ rfl rfl ?_ ?_)
    fun x hx => Same.trans (.setUser hx _) (.setThread (hst ▸ onlyAt_some) onlyAt_some hx)
  · exact (congrArg HttpConn.sockfd (s.setUser_self fd c)).trans hsock
  · rcases hnew with rfl | ⟨_, rfl⟩ | ⟨_, rfl⟩ <;> trivial
  · rcases hnew with rfl | ⟨_, rfl⟩ | ⟨_, rfl⟩ <;> exact id
  · rcases hnew with rfl | ⟨_, rfl⟩ | ⟨_, rfl⟩
    · exact .inl hreg
    · exact hreg
    · exact hreg
  · rcases hnew with rfl | ⟨_, rfl⟩ | ⟨_, rfl⟩ <;> exact nofun

theorem Inv.modfd {ev : Interest} (h : Inv tight s) (hst : s.threads τ = some (fd, .modfd ev)) :
    Inv tight ((s.modfd (s.users fd).sockfd ev).setThread τ none) := by
  have hp := h.holder hst trivial
  have hreg : s.epoll fd = some none := hp.registers
  rw [(hp.live id).1]
  refine h.of (p := .armed) (hp.release id ⟨rfl, rfl, rfl, rfl, rfl⟩ rfl (.inl rfl) rfl hp.queued
    ⟨ev, ?_⟩ nofun) fun x hx => .trans (.modfd hx ev) (.setThread (hst ▸ onlyAt_some) onlyAt_none hx)
  simp [Server.modfd, Server.setThread, hreg]

/-- No number below 0 is registered. -/
theorem Inv.epoll_neg (h : Inv tight s) (hneg : fd < 0) : s.epoll fd = none := by
  obtain ⟨p, hp⟩ := h fd
  obtain rfl : p = .closed := by
    refine Decidable.byContradiction fun hne => ?_
    have := hp.nonneg hne
    omega
  exact hp.registers

/-- The last statement of `process`, after `close_conn`, must not find the number registered
    and disarmed. -/
theorem Inv.modfdClosed (h : Inv tight s) (hst : s.threads τ = some (fd, .modfdClosed))
    (harmed : s.epoll (s.users fd).sockfd ≠ some none) :
    Inv tight ((s.modfd (s.users fd).sockfd .epollout).setThread τ none) := by
  obtain ⟨p, hp⟩ := h fd
  have hin := hp.late _ _ hst id
  have hresets : ∀ {u : Server}, u.threads = Function.update s.threads τ none → s.Resets fd → u.Resets fd :=
    fun hu => resets_update hu (by rw [hst]; rintro ⟨⟩)
  have hsock : (s.users fd).sockfd = -1 ∨ (s.users fd).sockfd = fd := by
    by_cases hlive : p.Live
    · exact .inr (hp.live hlive).1
    · exact (hp.dead hlive hin).imp_right And.left
  have hdead : ¬ p.Live → s.inited fd = true →
      (s.users fd).sockfd = -1 ∨ (s.users fd).sockfd = fd ∧ (s.setThread τ none).Resets fd :=
    fun hd hin => (hp.dead hd hin).imp_right fun hr => ⟨hr.1, hresets rfl hr.2⟩
  have honly : OnlyAt fd (s.threads τ) := hst ▸ onlyAt_some
  rcases hsock with hsock | hsock
  · -- `modfd` fails on -1
    have hnone : s.modfd (s.users fd).sockfd .epollout = s := by
      rw [hsock, Server.modfd, if_pos (h.epoll_neg (by omega))]
    rw [hnone]
    exact h.of (hp.drop hst id rfl (by rintro _ ⟨⟩) rfl rfl rfl rfl rfl rfl hp.registers (fun _ => rfl) hdead)
      fun x hx => .setThread honly onlyAt_none hx
  · rw [hsock] at harmed ⊢
    refine h.of (hp.drop hst id rfl (by rintro _ ⟨⟩) rfl rfl rfl rfl rfl rfl ?_ (fun _ => rfl) hdead)
      fun x hx => .trans (.modfd hx _) (.setThread honly onlyAt_none hx)
    have hreg := hp.registers
    simp only [Server.setThread, Server.modfd]
    split
    · exact hreg
    · next hne =>
      rw [Function.update_self]
      cases hepoll : s.epoll fd with
      | none => exact absurd hepoll hne
      | some r =>
        cases r with
        | none => exact absurd hepoll harmed
        | some ev =>
          rw [hepoll] at hreg
          exact hreg.rearm _

-- ---------------------------------------------------------------------------
-- Steps
-- ---------------------------------------------------------------------------

theorem start_inv (users : Int → HttpConn) : Inv tight (.start users) := fun _ =>
  ⟨.closed, by simp [Server.start], rfl, rfl, by simp [Server.start], rfl, nofun, nofun,
    by simp [Server.start], fun _ => id, nofun, fun h => absurd rfl h, rfl, nofun,
    fun _ h => absurd rfl h⟩

theorem Inv.step {a : Action} (h : Inv tight s) (hstep : Step n m s a t)
    (hreuses : ¬ Reuses s a) (hloses : tight → ¬ Loses m s a) : Inv tight t := by
  cases hstep with
  | wait events hmain hevents hreports => exact h.wait hmain hevents hreports
  | acceptFail _ hevents => exact h.acceptFail hevents
  | accept hmain hevents hnonneg hclosed =>
    refine h.accept hmain hevents hnonneg hclosed fun htight τ st hτ => ?_
    cases τ with
    | main => cases hmain.symm.trans hτ
    | worker w => exact hloses htight ⟨w, st, hτ⟩
  | checkCount hst =>
    refine h.checkCount hst ?_
    split
    · exact .inl rfl
    · exact .inr rfl
  | refuse hst => exact h.refuse hst
  | init hst =>
    refine h.init hst ?_
    rintro rfl hresets
    exact hreuses ⟨_, hst, hresets⟩
  | next hmain hevents => exact h.next hmain hevents
  | read hst _ => exact h.read hst
  | append hst => exact h.append hst fun htight => Nat.not_lt.mp fun hfull => hloses htight ⟨_, hst, hfull⟩
  | write hst _ hr => exact h.write hst hr
  | mainClose hst => exact h.closing hst
  | take _ hst hqueue => exact h.take hst hqueue
  | processRead hst hrun =>
    refine h.work hst (.inl rfl) (HttpConn.processRead_sockfd hrun) ?_
    split
    · exact .inr (.inl ⟨_, rfl⟩)
    · exact .inr (.inr ⟨_, rfl⟩)
  | processWrite hst =>
    refine h.work hst (.inr ⟨_, rfl⟩) (HttpConn.processWrite_sockfd _ _) ?_
    split
    · exact .inr (.inl ⟨_, rfl⟩)
    · exact .inl rfl
  | workerClose hst => exact h.closing hst
  | modfd hst => exact h.modfd hst
  | modfdClosed hst => exact h.modfdClosed hst fun hdisarmed => hreuses ⟨_, hst, hdisarmed⟩

/-- If threads hold what they work on, no number is reused too early. -/
theorem Inv.not_reuses (h : Inv True s) (a : Action) : ¬ Reuses s a := by
  cases a with
  | main =>
    rintro ⟨fd, hst, τ, hτ⟩
    exact (h.holder hst trivial).alone trivial nofun _ _ hτ
  | worker w =>
    rintro ⟨fd, hst, hdisarmed⟩
    obtain ⟨p, hp⟩ := h fd
    have hclosed : p = .closed := Decidable.byContradiction fun hne =>
      hp.alone trivial hne _ _ hst
    subst hclosed
    rcases hp.dead id (hp.late _ _ hst id) with hsock | ⟨hsock, -⟩
    · rw [hsock, h.epoll_neg (by omega)] at hdisarmed
      cases hdisarmed
    · rw [hsock] at hdisarmed
      cases hdisarmed.symm.trans hp.registers
  | _ => exact id

end WebServer
