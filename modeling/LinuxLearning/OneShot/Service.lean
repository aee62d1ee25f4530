-- SUMMARY: Whom the workers serve: one-shot events hand each socket to one worker, as long as the worker reads its struct in time.
import LinuxLearning.OneShot.Server

/-!
# One worker for each socket

A socket is armed, or its event is in the batch, or with the main loop, or with one worker.
That holds in every run. What a worker serves is the socket it was created for if it reads
the struct before the main loop fills it again.
-/

namespace OneShot

open Transition

/-- The worker has not let go of its socket. -/
def Worker.Active (w : Worker) : Prop :=
  w.phase ≠ .done

namespace System

variable {s t : System} {l : Label} {i j : Nat} {w w' : Worker} {fd : Int}

/-- Every worker operates on the socket whose event it was created for, and no two on one. -/
structure Exclusive (s : System) : Prop where
  own : ∀ i w sockfd, s.workers i = some w → w.phase.sockfd = some sockfd → sockfd = w.origin
  alone : ∀ i j w w' sockfd, s.workers i = some w → s.workers j = some w' → w.phase.sockfd = some sockfd →
    w'.phase.sockfd = some sockfd → i = j

/-- A worker reads the socket from a struct that has been filled for another event. -/
def ReadsLate (s : System) : Label → Prop
  | .readSockfd i => ∃ w, s.workers i = some w ∧ w.late = true
  | _ => False

/-- No worker has this socket. -/
def Free (s : System) (fd : Int) : Prop :=
  ∀ i w, s.workers i = some w → w.Active → w.origin ≠ fd

structure Inv (s : System) : Prop where
  nodup : (s.events.map EpollEvent.fd).Nodup
  batch : ∀ fd ∈ s.events.map EpollEvent.fd, fd ≠ s.listenfd →
    s.sockets fd = some .disarmed ∧ s.main.sockfd ≠ some fd ∧ s.Free fd
  main : ∀ fd, s.main.sockfd = some fd → s.sockets fd = some .disarmed ∧ s.Free fd
  filled : ∀ fd, s.main = .create fd → s.cell.sockfd = fd
  active : ∀ i w, s.workers i = some w → w.Active → s.sockets w.origin = some .disarmed
  unique : ∀ i j w w', s.workers i = some w → s.workers j = some w' → w.Active → w'.Active →
    w.origin = w'.origin → i = j
  own : ∀ i w sockfd, s.workers i = some w → w.phase.sockfd = some sockfd → sockfd = w.origin
  pending : ∀ i w, s.workers i = some w → w.phase = .readSockfd → (w.late = true ↔ s.cell.sockfd ≠ w.origin)

theorem active_of_sockfd (h : w.phase.sockfd = some fd) : w.Active := by
  intro hdone
  rw [hdone] at h
  cases h

theorem Inv.exclusive (hs : s.Inv) : s.Exclusive where
  own := hs.own
  alone i j w w' sockfd hi hj hw hw' :=
    hs.unique i j w w' hi hj (active_of_sockfd hw) (active_of_sockfd hw')
      ((hs.own i w sockfd hi hw).symm.trans (hs.own j w' sockfd hj hw'))

-- ---------------------------------------------------------------------------
-- Changes to one worker
-- ---------------------------------------------------------------------------

/-- The workers after one of them has been set. -/
theorem workers_setWorker {v : Worker} (hj : (s.setWorker i v).workers j = some w) :
    (j = i ∧ w = v) ∨ (j ≠ i ∧ s.workers j = some w) := by
  change Function.update s.workers i (some v) j = some w at hj
  by_cases h : j = i
  · subst h
    rw [Function.update_self] at hj
    exact .inl ⟨rfl, (Option.some.inj hj).symm⟩
  · rw [Function.update_of_ne h] at hj
    exact .inr ⟨h, hj⟩

theorem workers_goto {phase : Phase} (hj : (s.goto i w phase).workers j = some w') :
    (j = i ∧ w' = { w with phase := phase }) ∨ (j ≠ i ∧ s.workers j = some w') :=
  workers_setWorker hj

/-- A worker that goes on takes no other socket. -/
theorem Free.goto (hi : s.workers i = some w) (hw : w.Active) (hfree : s.Free fd) (phase : Phase) :
    (s.goto i w phase).Free fd := by
  intro j w' hj hw'
  rcases workers_goto hj with ⟨rfl, rfl⟩ | ⟨-, hj⟩
  · exact hfree _ w hi hw
  · exact hfree j w' hj hw'

/-- A worker that lets go of its socket leaves it to nobody. -/
theorem Inv.free_done (hs : s.Inv) (hi : s.workers i = some w) (hw : w.Active) : (s.goto i w .done).Free w.origin := by
  intro j w' hj hw' horigin
  rcases workers_goto hj with ⟨rfl, rfl⟩ | ⟨hne, hj⟩
  · exact hw' rfl
  · exact hne (hs.unique j i w' w hj hi hw' hw horigin)

/-- A worker goes on, with its own socket. -/
theorem Inv.goto (hs : s.Inv) (hi : s.workers i = some w) (hw : w.Active) {phase : Phase}
    (hown : ∀ sockfd, phase.sockfd = some sockfd → sockfd = w.origin) (hread : phase ≠ .readSockfd) :
    (s.goto i w phase).Inv where
  nodup := hs.nodup
  batch fd hfd hne := by
    obtain ⟨hsock, hmain, hfree⟩ := hs.batch fd hfd hne
    exact ⟨hsock, hmain, hfree.goto hi hw phase⟩
  main fd hfd := by
    obtain ⟨hsock, hfree⟩ := hs.main fd hfd
    exact ⟨hsock, hfree.goto hi hw phase⟩
  filled := hs.filled
  active j w' hj hw' := by
    rcases workers_goto hj with ⟨rfl, rfl⟩ | ⟨-, hj⟩
    · exact hs.active _ w hi hw
    · exact hs.active j w' hj hw'
  unique j k w₁ w₂ hj hk h₁ h₂ horigin := by
    rcases workers_goto hj with ⟨rfl, rfl⟩ | ⟨-, hj'⟩
    · rcases workers_goto hk with ⟨rfl, rfl⟩ | ⟨-, hk'⟩
      · rfl
      · exact hs.unique _ k w w₂ hi hk' hw h₂ horigin
    · rcases workers_goto hk with ⟨rfl, rfl⟩ | ⟨-, hk'⟩
      · exact hs.unique j _ w₁ w hj' hi h₁ hw horigin
      · exact hs.unique j k w₁ w₂ hj' hk' h₁ h₂ horigin
  own j w' sockfd hj hsock := by
    rcases workers_goto hj with ⟨rfl, rfl⟩ | ⟨-, hj⟩
    · exact hown sockfd hsock
    · exact hs.own j w' sockfd hj hsock
  pending j w' hj hphase := by
    rcases workers_goto hj with ⟨rfl, rfl⟩ | ⟨-, hj⟩
    · exact absurd hphase hread
    · exact hs.pending j w' hj hphase

-- ---------------------------------------------------------------------------
-- Changes to one socket
-- ---------------------------------------------------------------------------

/-- A socket that nobody has may be closed, reset or accepted. -/
theorem Inv.setSocket (hs : s.Inv) (hfree : s.Free fd) (hmain : s.main.sockfd ≠ some fd)
    (hbatch : fd ∈ s.events.map EpollEvent.fd → fd = s.listenfd) (x : Option Interest) :
    ({ s with sockets := Function.update s.sockets fd x } : System).Inv where
  nodup := hs.nodup
  batch fd' hfd' hne := by
    obtain ⟨hsock, hrest⟩ := hs.batch fd' hfd' hne
    have hother : fd' ≠ fd := fun heq => hne (heq ▸ hbatch (heq ▸ hfd'))
    exact ⟨(Function.update_of_ne hother ..).trans hsock, hrest⟩
  main fd' hfd' := by
    obtain ⟨hsock, hrest⟩ := hs.main fd' hfd'
    have hother : fd' ≠ fd := fun heq => hmain (heq ▸ hfd')
    exact ⟨(Function.update_of_ne hother ..).trans hsock, hrest⟩
  filled := hs.filled
  active j w hj hw := (Function.update_of_ne (hfree j w hj hw) ..).trans (hs.active j w hj hw)
  unique := hs.unique
  own := hs.own
  pending := hs.pending

/-- A worker lets go of its socket, and the socket is closed or reset. -/
theorem Inv.release (hs : s.Inv) (hi : s.workers i = some w) (hw : w.Active) (x : Option Interest) :
    (({ s with sockets := Function.update s.sockets w.origin x } : System).goto i w .done).Inv := by
  have hdone : (s.goto i w .done).Inv := hs.goto hi hw (fun _ => nofun) nofun
  refine hdone.setSocket (hs.free_done hi hw) (fun hmain => ?_) (fun hfd => ?_) x
  · exact (hs.main _ hmain).2 i w hi hw rfl
  · by_contra hne
    exact (hs.batch _ hfd hne).2.2 i w hi hw rfl

-- ---------------------------------------------------------------------------
-- The main loop
-- ---------------------------------------------------------------------------

/-- The main loop is done with an event. -/
theorem Inv.pop (hs : s.Inv) {ev : EpollEvent} {rest : List EpollEvent} (hev : s.events = ev :: rest) :
    ({ s with events := rest } : System).Inv where
  nodup := by
    have hnodup := hs.nodup
    rw [hev, List.map_cons, List.nodup_cons] at hnodup
    exact hnodup.2
  batch fd hfd := hs.batch fd (by rw [hev]; exact List.mem_cons_of_mem _ hfd)
  main := hs.main
  filled := hs.filled
  active := hs.active
  unique := hs.unique
  own := hs.own
  pending := hs.pending

theorem Inv.report (hs : s.Inv) {events : List EpollEvent} (hmain : s.main = .loop)
    (hnodup : (events.map EpollEvent.fd).Nodup)
    (harmed : ∀ ev ∈ events, ev.fd ≠ s.listenfd → s.sockets ev.fd = some .armed) : (s.report events).Inv where
  nodup := hnodup
  batch fd hfd hne := by
    obtain ⟨ev, hev, rfl⟩ := List.mem_map.mp hfd
    have hsock := harmed ev hev hne
    refine ⟨?_, ?_, fun i w hi hw horigin => ?_⟩
    · have hreported : ev.fd ∈ events.map EpollEvent.fd := hfd
      change (if ev.fd ∈ events.map EpollEvent.fd then _ else _) = _
      rw [if_pos hreported, hsock]
      rfl
    · change s.main.sockfd ≠ _
      rw [hmain]
      exact nofun
    · -- the socket of a worker is not armed
      have hdisarmed := hs.active i w hi hw
      rw [horigin, hsock] at hdisarmed
      cases hdisarmed
  main fd hfd := by
    change s.main.sockfd = _ at hfd
    rw [hmain] at hfd
    cases hfd
  filled := hs.filled
  active i w hi hw := by
    have hdisarmed := hs.active i w hi hw
    change (if w.origin ∈ events.map EpollEvent.fd then _ else _) = _
    split
    · rw [hdisarmed]
      rfl
    · exact hdisarmed
  unique := hs.unique
  own := hs.own
  pending := hs.pending

theorem Inv.take (hs : s.Inv) {ev : EpollEvent} {rest : List EpollEvent} (hev : s.events = ev :: rest)
    (hne : ev.fd ≠ s.listenfd) : ({ s with events := rest, main := .fillEpollfd ev.fd } : System).Inv where
  nodup := (hs.pop hev).nodup
  batch fd hfd hfdne := by
    obtain ⟨hsock, -, hfree⟩ := (hs.pop hev).batch fd hfd hfdne
    refine ⟨hsock, fun heq => ?_, hfree⟩
    have hnodup := hs.nodup
    rw [hev, List.map_cons, List.nodup_cons] at hnodup
    exact hnodup.1 (Option.some.inj heq ▸ hfd)
  main fd hfd := by
    obtain rfl := Option.some.inj hfd
    obtain ⟨hsock, -, hfree⟩ := hs.batch ev.fd (by rw [hev]; exact List.mem_cons_self) hne
    exact ⟨hsock, hfree⟩
  filled _ := nofun
  active := hs.active
  unique := hs.unique
  own := hs.own
  pending := hs.pending

/-- The struct is filled: a worker that has not read it has lost its socket. -/
theorem Inv.fillSockfd (hs : s.Inv) {sockfd : Int} (hmain : s.main = .fillSockfd sockfd) : (s.fillSockfd sockfd).Inv := by
  have hsockfd : s.main.sockfd = some sockfd := by rw [hmain]; rfl
  have hworkers : ∀ i w, (s.fillSockfd sockfd).workers i = some w →
      ∃ w', s.workers i = some w' ∧ w = { w' with late := true } := fun i w h => by
    obtain ⟨w', hw', rfl⟩ := Option.map_eq_some_iff.mp h
    exact ⟨w', hw', rfl⟩
  have hfrees : ∀ fd, s.Free fd → (s.fillSockfd sockfd).Free fd := fun fd hfree i w hi hw => by
    obtain ⟨w', hw', rfl⟩ := hworkers i w hi
    exact hfree i w' hw' hw
  constructor
  · exact hs.nodup
  · intro fd hfd hne
    obtain ⟨hsock, hother, hfree⟩ := hs.batch fd hfd hne
    exact ⟨hsock, by rwa [hsockfd] at hother, hfrees fd hfree⟩
  · intro fd hfd
    obtain ⟨hsock, hfree⟩ := hs.main fd (hsockfd.trans hfd)
    exact ⟨hsock, hfrees fd hfree⟩
  · rintro fd ⟨⟩
    rfl
  · intro i w hi hw
    obtain ⟨w', hw', rfl⟩ := hworkers i w hi
    exact hs.active i w' hw' hw
  · intro i j w₁ w₂ hi hj h₁ h₂ horigin
    obtain ⟨w, hw, rfl⟩ := hworkers i w₁ hi
    obtain ⟨w', hw', rfl⟩ := hworkers j w₂ hj
    exact hs.unique i j w w' hw hw' h₁ h₂ horigin
  · intro i w fd hi hfd
    obtain ⟨w', hw', rfl⟩ := hworkers i w hi
    exact hs.own i w' fd hw' hfd
  · intro i w hi hphase
    obtain ⟨w', hw', rfl⟩ := hworkers i w hi
    have hactive : w'.Active := fun hdone => nomatch hphase.symm.trans hdone
    exact ⟨fun _ => ((hs.main sockfd hsockfd).2 i w' hw' hactive).symm, fun _ => rfl⟩

theorem Inv.create (hs : s.Inv) {sockfd : Int} (hmain : s.main = .create sockfd) :
    ({ s with main := .loop }.setWorker i ⟨sockfd, false, .readSockfd⟩).Inv := by
  have hsockfd : s.main.sockfd = some sockfd := by rw [hmain]; rfl
  obtain ⟨hsock, hfree⟩ := hs.main sockfd hsockfd
  constructor
  · exact hs.nodup
  · intro fd hfd hne
    obtain ⟨hsock, hother, hfree⟩ := hs.batch fd hfd hne
    refine ⟨hsock, nofun, fun j w hj hw => ?_⟩
    rcases workers_setWorker hj with ⟨rfl, rfl⟩ | ⟨-, hj⟩
    · rintro rfl
      exact hother hsockfd
    · exact hfree j w hj hw
  · exact fun _ => nofun
  · exact fun _ => nofun
  · intro j w hj hw
    rcases workers_setWorker hj with ⟨rfl, rfl⟩ | ⟨-, hj⟩
    · exact hsock
    · exact hs.active j w hj hw
  · intro j k w₁ w₂ hj hk h₁ h₂ horigin
    rcases workers_setWorker hj with ⟨rfl, rfl⟩ | ⟨-, hj'⟩
    · rcases workers_setWorker hk with ⟨rfl, rfl⟩ | ⟨-, hk'⟩
      · rfl
      · exact absurd horigin.symm (hfree k w₂ hk' h₂)
    · rcases workers_setWorker hk with ⟨rfl, rfl⟩ | ⟨-, hk'⟩
      · exact absurd horigin (hfree j w₁ hj' h₁)
      · exact hs.unique j k w₁ w₂ hj' hk' h₁ h₂ horigin
  · intro j w fd hj hfd
    rcases workers_setWorker hj with ⟨rfl, rfl⟩ | ⟨-, hj⟩
    · cases hfd
    · exact hs.own j w fd hj hfd
  · intro j w hj hphase
    rcases workers_setWorker hj with ⟨rfl, rfl⟩ | ⟨-, hj⟩
    · exact ⟨nofun, fun hne => absurd (hs.filled sockfd hmain) hne⟩
    · exact hs.pending j w hj hphase

/-- The main loop goes on with another member of the struct, or leaves the event. -/
theorem Inv.setMain (hs : s.Inv) {main : Main} (hmain : ∀ fd, main.sockfd = some fd → s.main.sockfd = some fd)
    (hfilled : ∀ fd, main ≠ .create fd) (epollfd : Int) :
    ({ s with main := main, cell := { s.cell with epollfd := epollfd } } : System).Inv where
  nodup := hs.nodup
  batch fd hfd hne := by
    obtain ⟨hsock, hother, hfree⟩ := hs.batch fd hfd hne
    exact ⟨hsock, fun heq => hother (hmain fd heq), hfree⟩
  main fd hfd := hs.main fd (hmain fd hfd)
  filled fd hfd := absurd hfd (hfilled fd)
  active := hs.active
  unique := hs.unique
  own := hs.own
  pending := hs.pending

/-- A new connection is armed, and nobody has it. -/
theorem Inv.accept (hs : s.Inv) {connfd : Int} (hnew : s.sockets connfd = none) : (s.addfd connfd).Inv := by
  refine hs.setSocket (fun i w hi hw horigin => ?_) (fun hmain => ?_) (fun hfd => ?_) _
  · have hdisarmed := hs.active i w hi hw
    rw [horigin, hnew] at hdisarmed
    cases hdisarmed
  · have hdisarmed := (hs.main connfd hmain).1
    rw [hnew] at hdisarmed
    cases hdisarmed
  · by_contra hne
    have hdisarmed := (hs.batch connfd hfd hne).1
    rw [hnew] at hdisarmed
    cases hdisarmed

-- ---------------------------------------------------------------------------
-- Runs
-- ---------------------------------------------------------------------------

theorem Inv.step (hs : s.Inv) (h : Step s l t) (hgood : ¬ s.ReadsLate l) : t.Inv := by
  cases h with
  | epollWait hmain _ hnodup harmed => exact hs.report hmain hnodup harmed
  | accept _ hev _ hnew => exact (hs.pop hev).accept hnew
  | acceptFails _ hev _ => exact hs.pop hev
  | take _ hev hne _ => exact hs.take hev hne
  | skip _ hev _ _ => exact hs.pop hev
  | fillEpollfd hmain => exact hs.setMain (fun fd hfd => by rw [hmain]; exact hfd) (fun _ => by nofun) s.epollfd
  | fillSockfd hmain => exact hs.fillSockfd hmain
  | create hmain _ => exact hs.create hmain
  | createFails _ => exact hs.setMain (fun _ => by nofun) (fun _ => by nofun) s.cell.epollfd
  | @readSockfd i w hi hphase =>
    refine hs.goto hi (fun hdone => nomatch hphase.symm.trans hdone) (fun sockfd hsockfd => ?_) nofun
    -- the struct is still the one that was filled for the worker
    have hcell : ¬ s.cell.sockfd ≠ w.origin := fun hne => hgood ⟨w, hi, (hs.pending i w hi hphase).mpr hne⟩
    rw [← Option.some.inj hsockfd]
    exact not_not.mp hcell
  | @readEpollfd i w sockfd hi hphase =>
    have hsockfd : w.phase.sockfd = some sockfd := by rw [hphase]; rfl
    refine hs.goto hi (active_of_sockfd hsockfd) (fun fd hfd => ?_) nofun
    exact hs.own i w fd hi (hsockfd.trans hfd)
  | @recv i w sockfd epollfd r hi hphase =>
    have hsockfd : w.phase.sockfd = some sockfd := by rw [hphase]; rfl
    refine hs.goto hi (active_of_sockfd hsockfd) (fun fd hfd => hs.own i w fd hi (hsockfd.trans ?_)) ?_
    · cases r <;> exact hfd
    · cases r <;> exact nofun
  | @close i w sockfd hi hphase =>
    have hsockfd : w.phase.sockfd = some sockfd := by rw [hphase]; rfl
    obtain rfl := hs.own i w sockfd hi hsockfd
    exact hs.release hi (active_of_sockfd hsockfd) none
  | @reset i w sockfd epollfd hi hphase =>
    have hsockfd : w.phase.sockfd = some sockfd := by rw [hphase]; rfl
    obtain rfl := hs.own i w sockfd hi hsockfd
    unfold resetOneshot
    split
    · exact hs.release hi (active_of_sockfd hsockfd) _
    · exact hs.goto hi (active_of_sockfd hsockfd) (fun _ => nofun) nofun

/-- A worker that reads the struct too late gets a socket that is not its own. -/
theorem Inv.readsLate (hs : s.Inv) (h : Step s l t) (hbad : s.ReadsLate l) : ¬ t.Exclusive := by
  intro hexcl
  cases h with
  | @readSockfd i w hi hphase =>
    obtain ⟨w', hi', hlate⟩ := hbad
    obtain rfl := Option.some.inj (hi.symm.trans hi')
    have hown := hexcl.own i _ s.cell.sockfd (Function.update_self ..) rfl
    exact (hs.pending i w hi hphase).mp hlate hown
  | _ => exact hbad

theorem start_inv (listenfd epollfd : Int) (cell : Fds) : (start listenfd epollfd cell).Inv where
  nodup := List.nodup_nil
  batch _ := nofun
  main _ := nofun
  filled _ := nofun
  active _ _ := nofun
  unique _ _ _ _ := nofun
  own _ _ _ := nofun
  pending _ _ := nofun

/-- Every worker serves the socket it was created for, and no socket is served by two, in every
    state of a run exactly if every worker reads the struct before it is filled again. -/
theorem served_alone_iff (listenfd epollfd : Int) (cell : Fds) (ls : List Label) (t : System) :
    Run (fun s l t => Step s l t ∧ ¬ s.ReadsLate l) (start listenfd epollfd cell) ls t ↔
      Run (fun s l t => Step s l t ∧ t.Exclusive) (start listenfd epollfd cell) ls t :=
  Run.congr (I := Inv) (fun _ _ _ hs h hgood => hs.step h hgood)
    (fun _ _ _ hs h => ⟨fun hgood => (hs.step h hgood).exclusive, fun hexcl hbad => hs.readsLate h hbad hexcl⟩)
    (start_inv listenfd epollfd cell)

/-- Two sockets come in one batch, and the struct is filled for the second before the first
    worker reads it: both workers serve the second socket, and nobody the first. -/
theorem struct_overwritten :
    ∃ t, Run Step (start 3 4 ⟨0, 0⟩)
        [.epollWait [⟨3, true⟩], .accept (some 5), .epollWait [⟨3, true⟩], .accept (some 6),
          .epollWait [⟨5, true⟩, ⟨6, true⟩], .take, .fillEpollfd, .fillSockfd, .create (some 0),
          .take, .fillEpollfd, .fillSockfd, .create (some 1), .readSockfd 0, .readSockfd 1] t ∧
      t.workers 0 = some ⟨5, true, .readEpollfd 6⟩ ∧ t.workers 1 = some ⟨6, false, .readEpollfd 6⟩ ∧ ¬ t.Exclusive := by
  refine ⟨_, .cons (.epollWait rfl rfl (by decide) ?_) (.cons (.accept rfl rfl rfl rfl)
    (.cons (.epollWait rfl rfl (by decide) ?_) (.cons (.accept rfl rfl rfl rfl)
    (.cons (.epollWait rfl rfl (by decide) ?_)
    (.cons (.take rfl rfl (by decide) rfl) (.cons (.fillEpollfd rfl) (.cons (.fillSockfd rfl) (.cons (.create rfl rfl)
    (.cons (.take rfl rfl (by decide) rfl) (.cons (.fillEpollfd rfl) (.cons (.fillSockfd rfl) (.cons (.create rfl rfl)
    (.cons (.readSockfd rfl rfl) (.cons (.readSockfd rfl rfl) (.nil _))))))))))))))), rfl, rfl, fun h => ?_⟩
  · intro ev hev hne
    obtain rfl := List.mem_singleton.mp hev
    exact absurd rfl hne
  · intro ev hev hne
    obtain rfl := List.mem_singleton.mp hev
    exact absurd rfl hne
  · intro ev hev _
    rcases List.mem_cons.mp hev with rfl | hev
    · rfl
    · obtain rfl := List.mem_singleton.mp hev
      rfl
  · exact absurd (h.own 0 _ 6 rfl rfl) (by decide)

end System

end OneShot
