-- SUMMARY: Every open connection has one timer, which expires 3 * TIMESLOT after it was last active; the handlers keep this, and a tick closes the idle connections.
import LinuxLearning.CloseInactive.Server

/-!
# Deadlines

`users[fd].timer` is not cleared when a connection is closed. It is not used either until
the descriptor is accepted again, since a batch reports a descriptor once and only if it is
open. So the timers in the list are those of the open connections, and the expiry of each
is the deadline of its connection.
-/

namespace CloseInactive

open Memory DoublyLinked Timers Transition SortTimerList

/-- The timer of a connection. -/
def deadline (activeAt : Nat → Int) (fd : Nat) : TimerData :=
  ⟨activeAt fd + 3 * timeslot, cbFuncAddr, some fd⟩

theorem due_deadline {cur : Int} {p : Ptr} {activeAt : Nat → Int} {fd : Nat} :
    due cur (p, deadline activeAt fd) = true ↔ activeAt fd + 3 * timeslot ≤ cur :=
  decide_eq_true_iff

namespace Server

variable {s r : Server} {activeAt : Nat → Int} {es : List Entry} {fd n : Nat} {p : Ptr} {cur : Int}

/-- The list `es` holds one timer for each open connection, where its record points. -/
structure Timed (s : Server) (activeAt : Nat → Int) (es : List Entry) : Prop where
  rep : Represents s.timers s.timerList es
  sorted : Sorted es
  mem : ∀ p d, (p, d) ∈ es ↔ ∃ fd, s.isOpen fd = true ∧ (s.users fd).timer = some p ∧ d = deadline activeAt fd
  timer : ∀ fd, s.isOpen fd = true → ∃ p, (s.users fd).timer = some p
  sockfd : ∀ fd, s.isOpen fd = true → (s.users fd).sockfd = fd

/-- The entry of an open connection. -/
theorem Timed.entry (h : s.Timed activeAt es) (hopen : s.isOpen fd = true) :
    ∃ p, (s.users fd).timer = some p ∧ (p, deadline activeAt fd) ∈ es := by
  obtain ⟨p, hp⟩ := h.timer fd hopen
  exact ⟨p, hp, (h.mem p _).mpr ⟨fd, hopen, hp, rfl⟩⟩

/-- Two connections do not share a timer. -/
theorem Timed.owner (h : s.Timed activeAt es) {fd' : Nat} (hopen : s.isOpen fd = true)
    (hopen' : s.isOpen fd' = true) (hp : (s.users fd).timer = some p) (hp' : (s.users fd').timer = some p) :
    fd = fd' := by
  have hmem := (h.mem p _).mpr ⟨fd, hopen, hp, rfl⟩
  have hmem' := (h.mem p _).mpr ⟨fd', hopen', hp', rfl⟩
  have heq : (p, deadline activeAt fd) = (p, deadline activeAt fd') :=
    List.inj_on_of_nodup_map h.rep.nodup hmem hmem' rfl
  simpa [deadline] using congrArg (fun e => e.2.userData) heq

/-- The other entries are those of the other connections. -/
theorem Timed.mem_rest {pre post : List Entry} {d : TimerData}
    (h : s.Timed activeAt (pre ++ (p, d) :: post)) (hopen : s.isOpen fd = true)
    (hp : (s.users fd).timer = some p) {q : Ptr} {d' : TimerData} :
    (q, d') ∈ pre ++ post ↔ ∃ fd', s.isOpen fd' = true ∧ fd' ≠ fd ∧ (s.users fd').timer = some q ∧
      d' = deadline activeAt fd' := by
  obtain ⟨-, hpre, hpost⟩ := nodup_split h.rep.nodup
  constructor
  · intro hmem
    have hne : q ≠ p := by
      rintro rfl
      rcases List.mem_append.mp hmem with hmem | hmem
      · exact hpre (List.mem_map_of_mem hmem)
      · exact hpost (List.mem_map_of_mem hmem)
    have hwhole : (q, d') ∈ pre ++ (p, d) :: post := by
      rw [List.mem_append] at hmem ⊢
      exact hmem.imp_right (List.mem_cons_of_mem _)
    obtain ⟨fd', hfd, hq, hd⟩ := (h.mem q d').mp hwhole
    refine ⟨fd', hfd, ?_, hq, hd⟩
    rintro rfl
    exact hne (Option.some.inj (hq.symm.trans hp))
  · rintro ⟨fd', hfd, hne, hq, hd⟩
    have hwhole := (h.mem q d').mpr ⟨fd', hfd, hq, hd⟩
    rw [List.mem_append, List.mem_cons] at hwhole
    rcases hwhole with hmem | heq | hmem
    · exact List.mem_append_left _ hmem
    · cases heq
      exact absurd (h.owner hfd hopen hq hp) hne
    · exact List.mem_append_right _ hmem

/-- Each open connection has one live timer in the list, and its record points to it; the
    list holds no others. -/
def OneTimerEach (s : Server) : Prop :=
  ∃ es, Represents s.timers s.timerList es ∧
    (∀ fd, s.isOpen fd = true → ∃ e ∈ es, (s.users fd).timer = some e.1 ∧
      ∀ e' ∈ es, e'.2.userData = some fd ↔ e' = e) ∧
    ∀ e ∈ es, ∃ fd, s.isOpen fd = true ∧ e.2.userData = some fd

theorem Timed.oneTimerEach (h : s.Timed activeAt es) : s.OneTimerEach := by
  refine ⟨es, h.rep, fun fd hfd => ?_, ?_⟩
  · obtain ⟨p, hp, hmem⟩ := h.entry hfd
    refine ⟨_, hmem, hp, fun e' hmem' => ⟨fun hdata => ?_, fun heq => heq ▸ rfl⟩⟩
    obtain ⟨q, d⟩ := e'
    obtain ⟨fd', -, hq, rfl⟩ := (h.mem q d).mp hmem'
    obtain rfl : fd' = fd := Option.some.inj hdata
    rw [Option.some.inj (hq.symm.trans hp)]
  · rintro ⟨p, d⟩ hmem
    obtain ⟨fd, hfd, -, rfl⟩ := (h.mem p d).mp hmem
    exact ⟨fd, hfd, rfl⟩

/-! ## The handlers -/

theorem Timed.handleAccept (h : s.Timed activeAt es) {a : Answers} (hopen : s.isOpen a.connfd = false)
    (hnew : s.timers a.timer = none) :
    ∃ r es', Yields (fun n => s.handleAccept n a) r ∧
      r.Timed (Function.update activeAt a.connfd a.time) es' ∧
      r.listenfd = s.listenfd ∧ r.pipefd = s.pipefd ∧ r.isOpen = Function.update s.isOpen a.connfd true := by
  have hunlisted : a.timer ∉ addrs es := by
    intro hmem
    obtain ⟨v, hv⟩ := h.rep.seg.live hmem
    rw [hnew] at hv
    cases hv
  obtain ⟨timers, timerList, hrun, hrep, -⟩ :=
    addTimer_ok (d := ⟨a.time + 3 * timeslot, cbFuncAddr, some a.connfd⟩) (h.rep.update hunlisted _)
      hunlisted (Function.update_self ..)
  have hne : ∀ fd, s.isOpen fd = true → fd ≠ a.connfd := by
    rintro _ hfd rfl
    rw [hopen] at hfd
    cases hfd
  refine ⟨{ s with
      users := Function.update s.users a.connfd ⟨a.connfd, some a.timer⟩
      timers := timers
      timerList := timerList
      isOpen := Function.update s.isOpen a.connfd true }, _, ⟨es.length + 1, fun n hn => ?_⟩,
    ⟨hrep, h.sorted.insert _, fun p d => ?_, ?_, ?_⟩, rfl, rfl, rfl⟩
  · simp only [Server.handleAccept, hrun n hn, ok_bind, pure_eq_ok]
  · rw [(insertSorted_perm _ es).mem_iff, List.mem_cons, h.mem]
    constructor
    · rintro (heq | ⟨fd, hfd, hp, rfl⟩)
      · cases heq
        exact ⟨a.connfd, by simp, by simp, by simp [deadline]⟩
      · exact ⟨fd, by simp [hne fd hfd, hfd], by simpa [hne fd hfd] using hp, by simp [deadline, hne fd hfd]⟩
    · rintro ⟨fd, hfd, hp, rfl⟩
      by_cases heq : fd = a.connfd
      · subst heq
        simp only [Function.update_self, Option.some.injEq] at hp
        exact .inl (by simp [deadline, hp])
      · simp only [Function.update_of_ne heq] at hfd hp
        exact .inr ⟨fd, hfd, hp, by simp [deadline, heq]⟩
  all_goals
    intro fd hfd
    by_cases heq : fd = a.connfd
    · subst heq
      simp
    simp only [Function.update_of_ne heq] at hfd ⊢
  · exact h.timer fd hfd
  · exact h.sockfd fd hfd

theorem Timed.dropClient (h : s.Timed activeAt es) (hopen : s.isOpen fd = true) :
    ∃ r es', s.dropClient fd = .ok r ∧ r.Timed activeAt es' ∧ r.listenfd = s.listenfd ∧
      r.pipefd = s.pipefd ∧ r.isOpen = Function.update s.isOpen fd false := by
  obtain ⟨p, hp, hmem⟩ := h.entry hopen
  obtain ⟨pre, post, rfl⟩ := List.append_of_mem hmem
  obtain ⟨timers, timerList, hrun, hrep, -, -⟩ := delTimer_ok h.rep
  refine ⟨{ s with
      timers := timers
      timerList := timerList
      isOpen := Function.update s.isOpen fd false }, pre ++ post, ?_,
    ⟨hrep, h.sorted.sublist (by simp), fun q d => ?_, ?_, ?_⟩, rfl, rfl, rfl⟩
  · simp only [Server.dropClient, cbFunc, h.sockfd fd hopen, hp, hrun, ok_bind, pure_eq_ok]
  · rw [h.mem_rest hopen hp]
    constructor
    · rintro ⟨fd', hfd, hne, hq, hd⟩
      exact ⟨fd', by simp [hne, hfd], hq, hd⟩
    · rintro ⟨fd', hfd, hq, hd⟩
      by_cases heq : fd' = fd
      · simp [heq] at hfd
      · exact ⟨fd', by simpa [heq] using hfd, heq, hq, hd⟩
  all_goals
    intro fd' hfd
    by_cases heq : fd' = fd
    · simp [heq] at hfd
    simp only [Function.update_of_ne heq] at hfd
  · exact h.timer fd' hfd
  · exact h.sockfd fd' hfd

/-- Time does not go back, so the timer is moved back in the list. -/
theorem Timed.handleData (h : s.Timed activeAt es) (hopen : s.isOpen fd = true) {a : Answers} {d : List UInt8}
    (hrecv : a.recv = .data d) (htime : activeAt fd ≤ a.time) :
    ∃ r es', Yields (fun n => s.handleClient n fd a) r ∧
      r.Timed (Function.update activeAt fd a.time) es' ∧ r.listenfd = s.listenfd ∧
      r.pipefd = s.pipefd ∧ r.isOpen = s.isOpen := by
  obtain ⟨p, hp, hmem⟩ := h.entry hopen
  obtain ⟨pre, post, rfl⟩ := List.append_of_mem hmem
  have hmoved : { deadline activeAt fd with expire := a.time + 3 * timeslot } =
      deadline (Function.update activeAt fd a.time) fd := by
    simp [deadline]
  obtain ⟨timers₁, hset, hrep₁, -⟩ := h.rep.setExpire (e := a.time + 3 * timeslot)
  rw [hmoved] at hrep₁
  obtain ⟨timers, timerList, hrun, hrep, -⟩ := adjustTimer_ok hrep₁
  have hsorted : Sorted (pre ++ insertSorted (p, deadline (Function.update activeAt fd a.time) fd) post) :=
    h.sorted.adjust (by simpa [deadline] using htime)
  refine ⟨{ s with timers := timers, timerList := timerList }, _, ⟨post.length + 1, fun n hn => ?_⟩,
    ⟨hrep, hsorted, fun q d' => ?_, h.timer, h.sockfd⟩, rfl, rfl, rfl⟩
  · simp only [Server.handleClient, hrecv, hp, hset, hrun n hn, ok_bind, pure_eq_ok]
  · rw [(((insertSorted_perm _ post).append_left pre).trans List.perm_middle).mem_iff, List.mem_cons,
      h.mem_rest hopen hp]
    constructor
    · rintro (heq | ⟨fd', hfd, hne, hq, hd⟩)
      · cases heq
        exact ⟨fd, hopen, hp, rfl⟩
      · exact ⟨fd', hfd, hq, by simp [hd, deadline, hne]⟩
    · rintro ⟨fd', hfd, hq, rfl⟩
      by_cases heq : fd' = fd
      · subst heq
        exact .inl (by rw [Option.some.inj (hq.symm.trans hp)])
      · exact .inr ⟨fd', hfd, heq, hq, by simp [deadline, heq]⟩

/-- The callbacks close the connections of their timers. -/
theorem callbacks_ok {ts : List TimerData} (h : ∀ t ∈ ts, t.cbFunc = cbFuncAddr ∧
    ∃ fd, t.userData = some fd ∧ (s.users fd).sockfd = fd) :
    ts.foldlM callback s =
      .ok { s with isOpen := fun fd => s.isOpen fd && decide (some fd ∉ ts.map TimerData.userData) } := by
  induction ts generalizing s with
  | nil => simp
  | cons t ts ih =>
    obtain ⟨⟨hcb, fd, hdata, hsock⟩, hts⟩ := List.forall_mem_cons.mp h
    have hstep : callback s t = .ok { s with isOpen := Function.update s.isOpen fd false } := by
      simp [callback, hcb, cbFunc, hdata, hsock]
    have hrest := @ih { s with isOpen := Function.update s.isOpen fd false } hts
    rw [List.foldlM_cons, hstep, ok_bind, hrest]
    congr 2
    funext fd'
    by_cases heq : fd' = fd
    · subst heq
      simp [hdata]
    · simp [hdata, heq]

/-- A tick closes exactly the connections that have been idle long enough. -/
theorem Timed.timerHandler (h : s.Timed activeAt es) (cur : Int) :
    ∃ r es', Yields (fun n => s.timerHandler n cur) r ∧ r.Timed activeAt es' ∧ r.listenfd = s.listenfd ∧
      r.pipefd = s.pipefd ∧
      ∀ fd, r.isOpen fd = true ↔ s.isOpen fd = true ∧ cur < activeAt fd + 3 * timeslot := by
  obtain ⟨timers, timerList, hrun, hrep, -⟩ := tick_ok cur h.rep
  obtain ⟨htake, hdrop⟩ := h.sorted.takeWhile_due cur
  rw [htake] at hrun
  rw [hdrop] at hrep
  let fired := (es.filter (due cur)).map Prod.snd
  have hcalls : ∀ t ∈ fired, t.cbFunc = cbFuncAddr ∧
      ∃ fd, t.userData = some fd ∧ (s.users fd).sockfd = fd := by
    intro t ht
    obtain ⟨⟨p, d⟩, he, rfl⟩ := List.mem_map.mp ht
    obtain ⟨fd, hfd, -, rfl⟩ := (h.mem p d).mp (List.mem_of_mem_filter he)
    exact ⟨rfl, fd, rfl, h.sockfd fd hfd⟩
  have hfired : ∀ fd, s.isOpen fd = true →
      (some fd ∈ fired.map TimerData.userData ↔ activeAt fd + 3 * timeslot ≤ cur) := by
    intro fd hfd
    constructor
    · intro hmem
      obtain ⟨t, ht, hdata⟩ := List.mem_map.mp hmem
      obtain ⟨⟨p, d⟩, he, rfl⟩ := List.mem_map.mp ht
      obtain ⟨he, hdue⟩ := List.mem_filter.mp he
      obtain ⟨fd', -, -, rfl⟩ := (h.mem p d).mp he
      obtain rfl : fd' = fd := by simpa [deadline] using hdata
      exact due_deadline.mp hdue
    · intro hle
      obtain ⟨p, -, hmem⟩ := h.entry hfd
      exact List.mem_map.mpr ⟨deadline activeAt fd,
        List.mem_map.mpr ⟨_, List.mem_filter.mpr ⟨hmem, due_deadline.mpr hle⟩, rfl⟩, rfl⟩
  have hopen : ∀ fd, (s.isOpen fd && decide (some fd ∉ fired.map TimerData.userData)) = true ↔
      s.isOpen fd = true ∧ cur < activeAt fd + 3 * timeslot := by
    intro fd
    rw [Bool.and_eq_true, decide_eq_true_eq]
    refine and_congr_right fun hfd => ?_
    rw [hfired fd hfd, not_le]
  refine ⟨{ s with
      timers := timers
      timerList := timerList
      isOpen := fun fd => s.isOpen fd && decide (some fd ∉ fired.map TimerData.userData) }, _,
    ⟨es.length + 1, fun n hn => ?_⟩, ⟨hrep, h.sorted.sublist List.filter_sublist, fun p d => ?_, ?_, ?_⟩,
    rfl, rfl, hopen⟩
  · have hrest := @callbacks_ok { s with timers := timers, timerList := timerList } fired hcalls
    simp only [Server.timerHandler, hrun n hn, ok_bind, hrest, fired]
  · rw [List.mem_filter, h.mem, Bool.not_eq_true']
    constructor
    · rintro ⟨⟨fd, hfd, hp, rfl⟩, hdue⟩
      exact ⟨fd, (hopen fd).mpr ⟨hfd, not_le.mp fun hle => by simp [due_deadline.mpr hle] at hdue⟩, hp, rfl⟩
    · rintro ⟨fd, hfd, hp, rfl⟩
      obtain ⟨hfd, hlt⟩ := (hopen fd).mp hfd
      exact ⟨⟨fd, hfd, hp, rfl⟩, Bool.eq_false_iff.mpr fun hdue => hlt.not_ge (due_deadline.mp hdue)⟩
  all_goals
    intro fd hfd
    have hfd' := ((hopen fd).mp hfd).1
  · exact h.timer fd hfd'
  · exact h.sockfd fd hfd'

/-! ## One event -/

theorem handleSignals_eq (s : Server) (v : Recv) :
    ∃ timeout stopServer, s.handleSignals v = { s with timeout := timeout, stopServer := stopServer } := by
  have hfold : ∀ (d : List UInt8) (s : Server), ∃ timeout stopServer,
      d.foldl handleSignal s = { s with timeout := timeout, stopServer := stopServer } := by
    intro d
    induction d with
    | nil => exact fun s => ⟨s.timeout, s.stopServer, rfl⟩
    | cons b d ih =>
      intro s
      obtain ⟨t, st, h⟩ := ih (s.handleSignal b)
      refine ⟨t, st, h.trans ?_⟩
      unfold handleSignal
      split
      · rfl
      · split <;> rfl
  cases v with
  | data d => exact hfold d s
  | _ => exact ⟨s.timeout, s.stopServer, rfl⟩

end Server

namespace System

variable {s t : System} {event : Event} {events : List Event} {a : Answers} {act : Action} {as : List Action}

/-- What holds between two events. The rest of the batch is about descriptors that are open. -/
structure Inv (s : System) : Prop where
  timed : ∃ es, s.server.Timed s.activeAt es
  clock : ∀ fd, s.server.isOpen fd = true → s.acceptedAt fd ≤ s.activeAt fd ∧ s.activeAt fd ≤ s.clock
  batch : ∀ events, s.batch = some events →
    (events.map Event.fd).Nodup ∧ ∀ event ∈ events, s.server.Watched event.fd

theorem Inv.clock_le (hs : s.Inv) {time : Int} (htime : s.clock ≤ time) (fd : Nat)
    (hfd : s.server.isOpen fd = true) : s.acceptedAt fd ≤ s.activeAt fd ∧ s.activeAt fd ≤ time :=
  ⟨(hs.clock fd hfd).1, (hs.clock fd hfd).2.trans htime⟩

/-- The events behind one that changed at most its own descriptor. -/
theorem Inv.rest (hs : s.Inv) (hbatch : s.batch = some (event :: events)) {r : Server}
    (hlisten : r.listenfd = s.server.listenfd) (hpipe : r.pipefd = s.server.pipefd)
    (hkeep : ∀ fd, fd ≠ event.fd → s.server.isOpen fd = true → r.isOpen fd = true) :
    (events.map Event.fd).Nodup ∧ ∀ event ∈ events, r.Watched event.fd := by
  obtain ⟨hnodup, hwatched⟩ := hs.batch _ hbatch
  obtain ⟨hnew, hnodup⟩ := List.nodup_cons.mp hnodup
  refine ⟨hnodup, fun event' hmem => ?_⟩
  have hne : event'.fd ≠ event.fd := fun heq => hnew (heq ▸ List.mem_map_of_mem hmem)
  rw [Server.Watched, hlisten, hpipe]
  exact (hwatched event' (List.mem_cons_of_mem _ hmem)).imp_right (.imp_right (hkeep _ hne))

theorem record_accept (h : event.fd = s.server.listenfd) : s.record event a = { s with
    acceptedAt := Function.update s.acceptedAt a.connfd a.time
    activeAt := Function.update s.activeAt a.connfd a.time } :=
  if_pos h

theorem record_data (h : event.fd ≠ s.server.listenfd) (hpipe : event.fd ≠ s.server.pipefd)
    (hin : event.epollIn = true) {d : List UInt8} (hrecv : a.recv = .data d) :
    s.record event a = { s with activeAt := Function.update s.activeAt event.fd a.time } := by
  rw [record, if_neg h, if_pos ⟨hpipe, hin⟩, hrecv]

/-- Any other event leaves the times alone. -/
theorem record_other (h : event.fd ≠ s.server.listenfd)
    (hother : event.fd ≠ s.server.pipefd → event.epollIn = true → ∀ d, a.recv ≠ .data d) :
    s.record event a = s := by
  rw [record, if_neg h]
  split
  · rename_i hclient
    cases hrecv : a.recv with
    | data d => exact absurd hrecv (hother hclient.1 hclient.2 d)
    | eof | eagain | error => rfl
  · rfl

theorem Inv.handleAccept (hs : s.Inv) (hbatch : s.batch = some (event :: events)) (hp : s.Possible event a)
    (hlisten : event.fd = s.server.listenfd) :
    ∃ r, Yields (fun n => s.server.handleAccept n a) r ∧
      Inv { s.record event a with server := r, batch := some events, clock := a.time } := by
  rw [record_accept hlisten]
  obtain ⟨es, htimed⟩ := hs.timed
  obtain ⟨r, es', hrun, htimed', hl, hpipe, hopen⟩ :=
    htimed.handleAccept (hp.accept hlisten).2.2.2 (hp.new hlisten)
  refine ⟨r, hrun, ⟨es', htimed'⟩, fun fd hfd => ?_, ?_⟩
  · by_cases heq : fd = a.connfd
    · subst heq
      simp
    · simp only [hopen, Function.update_of_ne heq] at hfd
      simpa [heq] using hs.clock_le hp.time fd hfd
  · rintro _ ⟨⟩
    refine hs.rest hbatch hl hpipe fun fd _ hfd => ?_
    rw [hopen]
    by_cases heq : fd = a.connfd
    · rw [heq, Function.update_self]
    · rwa [Function.update_of_ne heq]

theorem Inv.handleClient (hs : s.Inv) (hbatch : s.batch = some (event :: events)) (hp : s.Possible event a)
    (hlisten : event.fd ≠ s.server.listenfd) (hpipefd : event.fd ≠ s.server.pipefd) (hin : event.epollIn = true)
    (hopen : s.server.isOpen event.fd = true) :
    ∃ r, Yields (fun n => s.server.handleClient n event.fd a) r ∧
      Inv { s.record event a with server := r, batch := some events, clock := a.time } := by
  obtain ⟨es, htimed⟩ := hs.timed
  have hclock := hs.clock_le hp.time
  -- an error and the end of the stream close the connection
  have hdrop : ∃ r, s.server.dropClient event.fd = .ok r ∧
      Inv { s with server := r, batch := some events, clock := a.time } := by
    obtain ⟨r, es', hrun, htimed', hl, hpipe, hopen'⟩ := htimed.dropClient hopen
    refine ⟨r, hrun, ⟨es', htimed'⟩, fun fd hfd => hclock fd ?_, ?_⟩
    · by_cases heq : fd = event.fd
      · simp [hopen', heq] at hfd
      · simpa [hopen', heq] using hfd
    · rintro _ ⟨⟩
      refine hs.rest hbatch hl hpipe fun fd hne hfd => ?_
      rwa [hopen', Function.update_of_ne hne]
  cases hrecv : a.recv with
  | data d =>
    obtain ⟨r, es', hrun, htimed', hl, hpipe, hopen'⟩ :=
      htimed.handleData hopen hrecv (hclock _ hopen).2
    rw [record_data hlisten hpipefd hin hrecv]
    refine ⟨r, hrun, ⟨es', htimed'⟩, fun fd hfd => ?_, ?_⟩
    · simp only [hopen'] at hfd
      obtain ⟨hle, hle'⟩ := hclock fd hfd
      by_cases heq : fd = event.fd
      · subst heq
        simpa using hle.trans hle'
      · simpa [heq] using ⟨hle, hle'⟩
    · rintro _ ⟨⟩
      exact hs.rest hbatch hl hpipe fun fd _ hfd => hopen' ▸ hfd
  | eagain =>
    rw [record_other hlisten fun _ _ d => by rw [hrecv]; rintro ⟨⟩]
    refine ⟨s.server, ⟨0, fun n _ => ?_⟩, ⟨es, htimed⟩, hclock, ?_⟩
    · simp only [Server.handleClient, hrecv, pure_eq_ok]
    · rintro _ ⟨⟩
      exact hs.rest hbatch rfl rfl fun _ _ h => h
  | eof | error =>
    obtain ⟨r, hrun, hinv⟩ := hdrop
    rw [record_other hlisten fun _ _ d => by rw [hrecv]; rintro ⟨⟩]
    refine ⟨r, ⟨0, fun n _ => ?_⟩, hinv⟩
    simp only [Server.handleClient, hrecv, hrun]

/-- Every handler returns, whatever the answers. -/
theorem Inv.handle (hs : s.Inv) (hbatch : s.batch = some (event :: events)) (hp : s.Possible event a) :
    ∃ r, Yields (fun n => s.server.handle n event a) r ∧
      Inv { s.record event a with server := r, batch := some events, clock := a.time } := by
  by_cases hlisten : event.fd = s.server.listenfd
  · obtain ⟨r, ⟨k, hrun⟩, hinv⟩ := hs.handleAccept hbatch hp hlisten
    refine ⟨r, ⟨k, fun n hn => ?_⟩, hinv⟩
    simp only [Server.handle, if_pos hlisten, hrun n hn]
  have hkeep : ∀ timeout stopServer, Inv { s with
      server := { s.server with timeout := timeout, stopServer := stopServer }
      batch := some events
      clock := a.time } := by
    intro timeout stopServer
    obtain ⟨es, h⟩ := hs.timed
    refine ⟨⟨es, h.rep, h.sorted, h.mem, h.timer, h.sockfd⟩, hs.clock_le hp.time, ?_⟩
    rintro _ ⟨⟩
    exact hs.rest hbatch rfl rfl fun _ _ h => h
  by_cases hpipe : event.fd = s.server.pipefd ∧ event.epollIn = true
  · obtain ⟨timeout, stopServer, hr⟩ := s.server.handleSignals_eq a.recv
    rw [record_other hlisten fun hne _ => absurd hpipe.1 hne]
    refine ⟨{ s.server with timeout := timeout, stopServer := stopServer }, ⟨0, fun n _ => ?_⟩,
      hkeep timeout stopServer⟩
    simp only [Server.handle, if_neg hlisten, if_pos hpipe, hr, pure_eq_ok]
  by_cases hin : event.epollIn = true
  · have hopen : s.server.isOpen event.fd = true := by
      rcases (hs.batch _ hbatch).2 event List.mem_cons_self with h | h | h
      · exact absurd h hlisten
      · exact absurd ⟨h, hin⟩ hpipe
      · exact h
    have hne : event.fd ≠ s.server.pipefd := fun heq => hpipe ⟨heq, hin⟩
    obtain ⟨r, ⟨k, hrun⟩, hinv⟩ := hs.handleClient hbatch hp hlisten hne hin hopen
    refine ⟨r, ⟨k, fun n hn => ?_⟩, hinv⟩
    simp only [Server.handle, if_neg hlisten, if_neg hpipe, if_pos hin, hrun n hn]
  · rw [record_other hlisten fun _ h => absurd h hin]
    refine ⟨s.server, ⟨0, fun n _ => ?_⟩, hkeep _ _⟩
    simp only [Server.handle, if_neg hlisten, if_neg hpipe, if_neg hin, pure_eq_ok]

/-- Behind a batch the idle connections are closed, if an alarm has come. -/
theorem Inv.finish (hs : s.Inv) {cur : Int} (hclock : s.clock ≤ cur) :
    ∃ r, Yields (fun n => s.server.finish n cur) r ∧
      Inv { s with server := r, batch := none, clock := cur } ∧
      ∀ fd, r.isOpen fd = true ↔ s.server.isOpen fd = true ∧
        (s.server.timeout = true → cur < s.activeAt fd + 3 * timeslot) := by
  obtain ⟨es, htimed⟩ := hs.timed
  have htimes := hs.clock_le hclock
  by_cases htimeout : s.server.timeout = true
  · obtain ⟨r, es', ⟨k, hrun⟩, h, hl, hpipe, hopen⟩ := htimed.timerHandler cur
    refine ⟨{ r with timeout := false }, ⟨k, fun n hn => ?_⟩,
      ⟨⟨es', h.rep, h.sorted, h.mem, h.timer, h.sockfd⟩, fun fd hfd => ?_, nofun⟩, fun fd => ?_⟩
    · simp only [Server.finish, if_pos htimeout, hrun n hn, ok_bind, pure_eq_ok]
    · exact htimes fd ((hopen fd).mp hfd).1
    · rw [hopen]
      simp [htimeout]
  · refine ⟨s.server, ⟨0, fun n _ => ?_⟩, ⟨⟨es, htimed⟩, htimes, nofun⟩, fun fd => ?_⟩
    · simp only [Server.finish, if_neg htimeout, pure_eq_ok]
    · simp [htimeout]

theorem Inv.step (hs : s.Inv) (h : Step s act t) : t.Inv := by
  cases h with
  | wait hbatch hstop hnodup hwatched =>
    refine ⟨hs.timed, hs.clock, ?_⟩
    rintro _ ⟨⟩
    exact ⟨hnodup, hwatched⟩
  | handle hbatch hp hrun =>
    obtain ⟨r, hrun', hinv⟩ := hs.handle hbatch hp
    cases hrun.unique hrun'
    exact hinv
  | finish hbatch hclock hrun =>
    obtain ⟨r, hrun', hinv, -⟩ := hs.finish hclock
    cases hrun.unique hrun'
    exact hinv

theorem start_inv (listenfd pipefd : Nat) (users : Nat → ClientData) (clock : Int) :
    (start listenfd pipefd users clock).Inv where
  timed := ⟨[], ⟨trivial, List.nodup_nil, rfl, fun h => absurd rfl h⟩, .nil, by simp [start], by simp [start],
    by simp [start]⟩
  clock := by simp [start]
  batch := nofun

/-! ## Runs -/

/-- In every run each open connection has one timer, no handler faults, and the timer
    handler closes a connection exactly if it has been idle for `3 * TIMESLOT` seconds. -/
theorem idle_closed {listenfd pipefd : Nat} {users : Nat → ClientData} {clock : Int}
    (h : Run Step (start listenfd pipefd users clock) as s) :
    s.server.OneTimerEach ∧
    (∀ event events a, s.batch = some (event :: events) → s.Possible event a →
      ∃ r, Yields (fun n => s.server.handle n event a) r) ∧
    (∀ cur, s.clock ≤ cur → ∃ r, Yields (fun n => s.server.finish n cur) r) ∧
    ∀ cur t, Step s (.finish cur) t →
      (∀ fd, s.server.isOpen fd = true → t.server.isOpen fd = false →
        s.acceptedAt fd + 3 * timeslot ≤ cur ∧ s.activeAt fd + 3 * timeslot ≤ cur) ∧
      (s.server.timeout = true → ∀ fd, t.server.isOpen fd = true → cur < s.activeAt fd + 3 * timeslot) := by
  have hinv : s.Inv :=
    h.invariant (fun _ _ _ hs hstep => hs.step hstep) (start_inv listenfd pipefd users clock)
  obtain ⟨es, htimed⟩ := hinv.timed
  refine ⟨htimed.oneTimerEach, fun event events a hbatch hp => ?_, fun cur hclock => ?_, fun cur t hstep => ?_⟩
  · obtain ⟨r, hrun, -⟩ := hinv.handle hbatch hp
    exact ⟨r, hrun⟩
  · obtain ⟨r, hrun, -⟩ := hinv.finish hclock
    exact ⟨r, hrun⟩
  · cases hstep with
    | finish hbatch hclock hrun =>
      obtain ⟨r, hrun', -, hopen⟩ := hinv.finish hclock
      cases hrun.unique hrun'
      refine ⟨fun fd hfd hclosed => ?_, fun htimeout fd hfd => ((hopen fd).mp hfd).2 htimeout⟩
      have hidle : s.activeAt fd + 3 * timeslot ≤ cur := by
        by_contra hlt
        have := (hopen fd).mpr ⟨hfd, fun _ => not_le.mp hlt⟩
        rw [hclosed] at this
        cases this
      exact ⟨(Int.add_le_add_right (hinv.clock fd hfd).1 _).trans hidle, hidle⟩

/-- Two connections are accepted at time 100, the first sends at time 107, and an alarm comes at
    time 115. -/
def alarmed : List Action :=
  [.wait [⟨3, true⟩], .handle ⟨7, 1, .eof, 100⟩, .finish 100, .wait [⟨3, true⟩], .handle ⟨8, 2, .eof, 100⟩,
    .finish 101, .wait [⟨7, true⟩], .handle ⟨0, 0, .data [1, 2], 107⟩, .finish 107, .wait [⟨4, true⟩],
    .handle ⟨0, 0, .data [sigalrm], 115⟩]

theorem alarmed_run : ∃ s, Run Step (start 3 4 (fun _ => ⟨0, none⟩) 100) alarmed s ∧ s.batch = some [] ∧
    s.clock = 115 ∧ s.server.isOpen 7 = true ∧ s.server.isOpen 8 = true ∧ s.server.timeout = true ∧
    s.activeAt 7 = 107 ∧ s.activeAt 8 = 100 := by
  have hlisten : ∀ event ∈ [(⟨3, true⟩ : Event)], event.fd = 3 := by simp
  have hpipe : ∀ event ∈ [(⟨4, true⟩ : Event)], event.fd = 4 := by simp
  have hclient : ∀ event ∈ [(⟨7, true⟩ : Event)], event.fd = 7 := by simp
  refine ⟨_,
    .cons (.wait rfl rfl (by decide) fun event h => .inl (hlisten event h))
    (.cons (.handle rfl ⟨fun _ => ⟨by decide, by decide, by decide, rfl⟩, fun _ => rfl, by decide⟩
      (Yields.of_add 0 fun _ => rfl))
    (.cons (.finish rfl (by decide) (Yields.of_add 0 fun _ => rfl))
    (.cons (.wait rfl rfl (by decide) fun event h => .inl (hlisten event h))
    (.cons (.handle rfl ⟨fun _ => ⟨by decide, by decide, by decide, rfl⟩, fun _ => rfl, by decide⟩
      (Yields.of_add 2 fun _ => rfl))
    (.cons (.finish rfl (by decide) (Yields.of_add 0 fun _ => rfl))
    (.cons (.wait rfl rfl (by decide) fun event h => .inr (.inr (by rw [hclient event h]; rfl)))
    (.cons (.handle rfl ⟨fun h => absurd h (by decide), fun h => absurd h (by decide), by decide⟩
      (Yields.of_add 2 fun _ => rfl))
    (.cons (.finish rfl (by decide) (Yields.of_add 0 fun _ => rfl))
    (.cons (.wait rfl rfl (by decide) fun event h => .inr (.inl (hpipe event h)))
    (.cons (.handle rfl ⟨fun h => absurd h (by decide), fun h => absurd h (by decide), by decide⟩
      (Yields.of_add 0 fun _ => rfl)) (.nil _))))))))))), rfl, rfl, rfl, rfl, rfl, rfl, rfl⟩

theorem idle_closed_alarmed : ∃ s t, Run Step (start 3 4 (fun _ => ⟨0, none⟩) 100) alarmed s ∧
    Step s (.finish 116) t ∧ s.server.isOpen 7 = true ∧ s.server.isOpen 8 = true ∧
    t.server.isOpen 7 = true ∧ t.server.isOpen 8 = false := by
  obtain ⟨s, hrun, hbatch, hclock, hopen, hopen', htimeout, hactive, hactive'⟩ := alarmed_run
  obtain ⟨-, -, hfinish, hidle⟩ := idle_closed hrun
  have hle : s.clock ≤ 116 := by rw [hclock]; decide
  obtain ⟨r, hr⟩ := hfinish 116 hle
  have hstep : Step s (.finish 116) { s with server := r, batch := none, clock := 116 } :=
    .finish hbatch hle hr
  obtain ⟨hclosed, hkept⟩ := hidle 116 _ hstep
  refine ⟨s, _, hrun, hstep, hopen, hopen', ?_, ?_⟩
  · by_contra hne
    have hlate := (hclosed 7 hopen (by simpa using hne)).2
    rw [hactive] at hlate
    exact absurd hlate (by decide)
  · by_contra hne
    have hlt := hkept htimeout 8 (by simpa using hne)
    rw [hactive'] at hlt
    exact absurd hlt (by decide)

end System

end CloseInactive
