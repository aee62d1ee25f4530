-- SUMMARY: The signals of a child of the process pool: a child at rest has waited for every process that ended, and stops for the signals that tell it to.
import LinuxLearning.CgiConn.Child

/-!
# The signals of a child

The handler writes a byte for each signal, the kernel merges signals that have not been
delivered, and the pipe may be full. One byte is nevertheless enough to wait for everything
that has ended: the loop around `waitpid` does not count signals.
-/

namespace ProcessPool

open Memory Transition

namespace RunChild

variable {K : ClientClass} {cap pipefd sigfd : Nat} {st st' : State K} {act : Action}
  {acts : List Action}

/-- The event of the signal pipe has not been handled. -/
def Edge (sigfd : Nat) (st : State K) : Prop :=
  st.ready sigfd = true ∨ (sigfd, true) ∈ st.phase.events

/-- The child is behind its loop. -/
def Over (st : State K) : Prop :=
  st.phase = .left ∨ st.phase = .crashed

/-- The child is blocked in `epoll_wait`, with nothing to report and no signal on its way. -/
structure Asleep (pipefd sigfd : Nat) (st : State K) : Prop where
  phase : st.phase = .wait
  stop : st.stop = false
  pending : st.pending = false
  quiet : ∀ events, Reports pipefd sigfd st events → events = []

-- ---------------------------------------------------------------------------
-- What a step does to the signals
-- ---------------------------------------------------------------------------

/-- Nothing but the named members changes, of those that have to do with signals. -/
structure Same (st st' : State K) : Prop where
  zombies : st'.zombies = st.zombies
  stop : st'.stop = st.stop
  todo : st'.phase.todo = st.phase.todo

/-- What a step does to the signals, as long as the child is in its loop. -/
inductive Effect (cap sigfd : Nat) (st : State K) : State K → Action → Prop where
  /-- As long as there is something to read, the event stays. -/
  | other {st' : State K} {act : Action} : (∀ sig, act ≠ .raise sig true) → Same st st' →
      st'.unread = st.unread → st'.pending = st.pending →
      (st.unread ≠ [] → Edge sigfd st → Edge sigfd st') → Effect cap sigfd st st' act
  | sent {st' : State K} {act : Action} (sig : Signal) : st.unread.length < cap → Same st st' →
      st'.unread = st.unread ++ [sig] → (st'.pending = st.pending ∨ sig = .chld) → Edge sigfd st' →
      (∀ sig', act = .raise sig' true → sig' = sig) → (sig ≠ .chld → act = .raise sig true) →
      Effect cap sigfd st st' act
  | full {st' : State K} {act : Action} : (∀ sig, act ≠ .raise sig true) → cap ≤ st.unread.length →
      Same st st' → st'.unread = st.unread → (Edge sigfd st → Edge sigfd st') → Effect cap sigfd st st' act
  | exit : Effect cap sigfd st
      { st with running := st.running - 1, zombies := st.zombies + 1, pending := true } .exit
  | recv {events : List Event} : st.phase = .handling ((sigfd, true) :: events) → st.unread ≠ [] →
      Effect cap sigfd st
        { st with phase := .signals (st.unread.take signalsSize) events
                  unread := st.unread.drop signalsSize } (.recvSignals st.unread.length)
  | signal {sig : Signal} {rest : List Signal} {events : List Event} :
      st.phase = .signals (sig :: rest) events →
      Effect cap sigfd st (st.onSignal rest events sig) (.signal sig)

theorem Edge.mono (h : Edge sigfd st) (hready : st.ready sigfd = true → st'.ready sigfd = true)
    (hevents : (sigfd, true) ∈ st.phase.events → (sigfd, true) ∈ st'.phase.events) : Edge sigfd st' :=
  h.imp hready hevents

/-- Another event than that of the signals has been handled. -/
theorem Edge.drop (h : Edge sigfd st) {ev : Event} {events : List Event}
    (hphase : st.phase = .handling (ev :: events)) (hne : ev ≠ (sigfd, true)) (hready : st'.ready = st.ready)
    (hevents : st'.phase.events = events) : Edge sigfd st' := by
  refine h.mono (fun hr => hready ▸ hr) fun hmem => ?_
  rw [hphase] at hmem
  rw [hevents]
  exact (List.mem_cons.mp hmem).resolve_left (Ne.symm hne)

/-- A signal has been looked at. -/
theorem Edge.signal (h : Edge sigfd st) {sig : Signal} {rest : List Signal} {events : List Event}
    (hphase : st.phase = .signals (sig :: rest) events) (hready : st'.ready = st.ready)
    (hevents : st'.phase.events = events) : Edge sigfd st' := by
  refine h.mono (fun hr => hready ▸ hr) fun hmem => ?_
  rw [hphase] at hmem
  rwa [hevents]

theorem Asleep.not_over (h : Asleep pipefd sigfd st) : ¬ Over st := by
  rintro (hp | hp)
  · cases h.phase.symm.trans hp
  · cases h.phase.symm.trans hp

theorem handler_effect (sig : Signal) (pending : Bool) (hact : act = .raise sig (st.unread.length < cap) ∨
      sig = .chld ∧ act = .deliver (st.unread.length < cap)) (hpending : pending = st.pending ∨ sig = .chld) :
    Effect cap sigfd st { st.handler cap sigfd sig with pending := pending } act := by
  unfold State.handler
  by_cases hroom : st.unread.length < cap
  · rw [if_pos hroom]
    simp only [hroom, decide_true] at hact
    refine .sent sig hroom ⟨rfl, rfl, rfl⟩ rfl hpending (.inl (Function.update_self ..)) ?_ fun hne => ?_
    · rintro sig' rfl
      rcases hact with hact | ⟨-, hact⟩
      · cases hact
        rfl
      · cases hact
    · exact hact.resolve_right fun h => hne h.1
  · rw [if_neg hroom]
    simp only [hroom, decide_false] at hact
    refine .full ?_ (Nat.not_lt.mp hroom) ⟨rfl, rfl, rfl⟩ rfl id
    rintro sig' rfl
    rcases hact with hact | ⟨-, hact⟩ <;> cases hact

theorem Step.effect (hstep : Step cap pipefd sigfd st act st') (hover : ¬ Over st') (hsig : sigfd ≠ pipefd) :
    Effect cap sigfd st st' act := by
  have hne : ∀ {fd : Nat}, fd ≠ sigfd → ((fd, true) : Event) ≠ (sigfd, true) := by
    rintro fd hfd ⟨⟩
    exact hfd rfl
  cases hstep with
  | notify =>
    refine .other (by simp) ⟨rfl, rfl, rfl⟩ rfl rfl fun _ h => h.mono (fun hr => ?_) id
    exact (Function.update_of_ne hsig ..).trans hr
  | @arrive fd _ =>
    refine .other (by simp) ⟨rfl, rfl, rfl⟩ rfl rfl fun _ h => h.mono (fun hr => ?_) id
    by_cases hfd : sigfd = fd
    · subst hfd
      exact Function.update_self ..
    · exact (Function.update_of_ne hfd ..).trans hr
  | raise sig => exact handler_effect sig (st.handler cap sigfd sig).pending (.inl rfl) (.inl (by
      unfold State.handler
      split <;> rfl))
  | exit _ => exact .exit
  | deliver _ => exact handler_effect .chld false (.inr ⟨rfl, rfl⟩) (.inr rfl)
  | @wait events hphase _ hrep =>
    refine .other (by simp) ⟨rfl, rfl, by rw [hphase]; rfl⟩ rfl rfl fun _ h => ?_
    by_cases hmem : sigfd ∈ events.map Prod.fst
    · obtain ⟨⟨fd, b⟩, hev, rfl⟩ := List.mem_map.mp hmem
      obtain ⟨rfl, -⟩ := hrep.readable b hev
      exact .inr hev
    · refine .inl ?_
      have hready : st.ready sigfd = true := h.resolve_right (by rw [hphase]; simp [Phase.events])
      simp [hready, hmem]
  | fail _ _ => exact absurd (.inl rfl) hover
  | leave _ _ => exact absurd (.inl rfl) hover
  | done hphase =>
    refine .other (by simp) ⟨rfl, rfl, by rw [hphase]; rfl⟩ rfl rfl fun _ h => h.mono id fun hmem => ?_
    rw [hphase] at hmem
    cases hmem
  | recvPipe ret hphase =>
    refine .other (by simp) ⟨rfl, rfl, ?_⟩ rfl rfl fun _ h => h.drop hphase (hne (Ne.symm hsig)) rfl ?_
    · rw [hphase]
      cases ret <;> rfl
    · cases ret <;> rfl
  | acceptFails hphase =>
    refine .other (by simp) ⟨rfl, rfl, by rw [hphase]; rfl⟩ rfl rfl fun _ h => h.mono id fun hmem => ?_
    rwa [hphase] at hmem
  | accept readable hphase hunused _ =>
    refine .other (by simp) ⟨rfl, rfl, by rw [hphase]; rfl⟩ rfl rfl fun _ h => h.mono (fun hr => ?_) fun hmem => ?_
    · refine (Function.update_of_ne ?_ ..).trans hr
      rintro rfl
      exact hunused (.inr (.inl rfl))
    · rwa [hphase] at hmem
  | acceptBeyond _ _ _ => exact absurd (.inr rfl) hover
  | recvNothing hphase _ hnil =>
    exact .other (by simp) ⟨rfl, rfl, by rw [hphase]; rfl⟩ rfl rfl fun hread => absurd hnil hread
  | recvSignals hphase _ hread => exact .recv hphase hread
  | signal hphase => exact .signal hphase
  | signalsDone hphase =>
    refine .other (by simp) ⟨rfl, rfl, by rw [hphase]; rfl⟩ rfl rfl fun _ h => h.mono id fun hmem => ?_
    rwa [hphase] at hmem
  | process hphase _ hfd _ _ _ =>
    exact .other (by simp) ⟨rfl, rfl, by rw [hphase]; rfl⟩ rfl rfl fun _ h => h.drop hphase (hne hfd) rfl rfl
  | processFaults _ _ _ _ _ _ => exact absurd (.inr rfl) hover
  | processBeyond _ _ _ _ => exact absurd (.inr rfl) hover
  | skip hphase =>
    exact .other (by simp) ⟨rfl, rfl, by rw [hphase]; rfl⟩ rfl rfl fun _ h => h.drop hphase (by simp) rfl rfl

@[simp] theorem handler_stop (sig : Signal) : (st.handler cap sigfd sig).stop = st.stop := by
  unfold State.handler
  split <;> rfl

/-- Nothing but signals and ends of processes comes behind the loop. -/
theorem Step.over (hstep : Step cap pipefd sigfd st act st') (h : Over st) : Over st' := by
  have hphase : ∀ {phase : Phase}, st.phase = phase → phase ≠ .left → phase ≠ .crashed → Over st' :=
    fun heq hleft hcrashed =>
      (h.elim (fun hp => hleft (heq.symm.trans hp)) fun hp => hcrashed (heq.symm.trans hp)).elim
  cases hstep with
  | notify => exact h
  | arrive _ => exact h
  | raise sig => simpa [Over] using h
  | exit _ => exact h
  | deliver _ => simpa [Over] using h
  | wait hp _ _ => exact hphase hp (by simp) (by simp)
  | fail hp _ => exact hphase hp (by simp) (by simp)
  | leave hp _ => exact hphase hp (by simp) (by simp)
  | done hp => exact hphase hp (by simp) (by simp)
  | recvPipe _ hp => exact hphase hp (by simp) (by simp)
  | acceptFails hp => exact hphase hp (by simp) (by simp)
  | accept _ hp _ _ => exact hphase hp (by simp) (by simp)
  | acceptBeyond hp _ _ => exact hphase hp (by simp) (by simp)
  | recvNothing hp _ _ => exact hphase hp (by simp) (by simp)
  | recvSignals hp _ _ => exact hphase hp (by simp) (by simp)
  | signal hp => exact hphase hp (by simp) (by simp)
  | signalsDone hp => exact hphase hp (by simp) (by simp)
  | process hp _ _ _ _ _ => exact hphase hp (by simp) (by simp)
  | processFaults hp _ _ _ _ _ => exact hphase hp (by simp) (by simp)
  | processBeyond hp _ _ _ => exact hphase hp (by simp) (by simp)
  | skip hp => exact hphase hp (by simp) (by simp)

/-- The flag is set in the loop only. -/
theorem Step.over_stop (hstep : Step cap pipefd sigfd st act st') (h : Over st') : st'.stop = st.stop := by
  cases hstep with
  | raise sig => exact handler_stop sig
  | deliver _ => exact handler_stop .chld
  | @signal sig _ _ hphase =>
    cases sig with
    | chld =>
      rw [State.onSignal]
      split <;> rfl
    | term => rcases h with h | h <;> cases h
    | int => rcases h with h | h <;> cases h
  | _ => rfl

/-- What the effects keep, as long as the child is in its loop, a step keeps. -/
theorem Step.keeps {P P' : Prop} (hstep : Step cap pipefd sigfd st act st') (hsig : sigfd ≠ pipefd)
    (h : Over st ∨ P) (heffect : P → Effect cap sigfd st st' act → P') : Over st' ∨ P' := by
  by_cases hover : Over st'
  · exact .inl hover
  · exact .inr (heffect (h.resolve_left fun hst => hover (hstep.over hst)) (hstep.effect hover hsig))

-- ---------------------------------------------------------------------------
-- Processes that have ended
-- ---------------------------------------------------------------------------

/-- The child is going to wait for the processes that have ended, or to stop. -/
def Due (sigfd : Nat) (st : State K) : Prop :=
  st.pending = true ∨ st.stop = true ∨ (st.unread ≠ [] ∧ Edge sigfd st) ∨ st.phase.todo ≠ []

structure Reaping (cap sigfd : Nat) (st : State K) : Prop where
  room : st.unread.length ≤ cap
  full : st.unread.length = cap → Edge sigfd st
  due : 0 < st.zombies → Due sigfd st

theorem length_pos_of_full {α : Type} {l : List α} (hcap : 0 < cap) (h : l.length = cap) : l ≠ [] :=
  List.ne_nil_of_length_pos (h ▸ hcap)

theorem Effect.reaping (hcap : 0 < cap) (h : Reaping cap sigfd st) (he : Effect cap sigfd st st' act) :
    Reaping cap sigfd st' := by
  cases he with
  | other _ hsame hunread hpending hedge =>
    refine ⟨hunread ▸ h.room, fun hfull => ?_, fun hz => ?_⟩
    · rw [hunread] at hfull
      exact hedge (length_pos_of_full hcap hfull) (h.full hfull)
    · rw [Due, hpending, hsame.stop, hunread, hsame.todo]
      exact (h.due (hsame.zombies ▸ hz)).imp_right (Or.imp_right (Or.imp_left fun hd => ⟨hd.1, hedge hd.1 hd.2⟩))
  | sent sig hroom hsame hunread hpending hedge _ _ =>
    refine ⟨?_, fun _ => hedge, fun _ => .inr (.inr (.inl ⟨?_, hedge⟩))⟩
    · rw [hunread, List.length_append]
      exact hroom
    · rw [hunread]
      simp
  | full _ hge hsame hunread hedge =>
    have hfull : st.unread.length = cap := Nat.le_antisymm h.room hge
    refine ⟨hunread ▸ h.room, fun _ => hedge (h.full hfull), fun _ => .inr (.inr (.inl ⟨?_, hedge (h.full hfull)⟩))⟩
    rw [hunread]
    exact length_pos_of_full hcap hfull
  | exit => exact ⟨h.room, h.full, fun _ => .inl rfl⟩
  | recv hphase hread =>
    -- what is read leaves room
    have hlt : (st.unread.drop signalsSize).length < cap := by
      have hpos := List.length_pos_iff.mpr hread
      have hle := h.room
      rw [List.length_drop, signalsSize]
      omega
    refine ⟨hlt.le, fun hfull => absurd hfull hlt.ne, fun _ => .inr (.inr (.inr ?_))⟩
    simpa [Phase.todo, signalsSize] using hread
  | @signal sig rest events hphase =>
    cases sig with
    | chld =>
      rw [State.onSignal]
      split
      · refine ⟨h.room, h.full, fun _ => .inr (.inr (.inr ?_))⟩
        simp [hphase, Phase.todo]
      · exact ⟨h.room, fun hfull => (h.full hfull).signal hphase rfl rfl, fun hz => absurd hz ‹_›⟩
    | term => exact ⟨h.room, fun hfull => (h.full hfull).signal hphase rfl rfl, fun _ => .inr (.inl rfl)⟩
    | int => exact ⟨h.room, fun hfull => (h.full hfull).signal hphase rfl rfl, fun _ => .inr (.inl rfl)⟩

theorem reports_signals (hready : st.ready sigfd = true) (hread : st.unread ≠ []) :
    Reports pipefd sigfd st [(sigfd, true)] where
  nodup := List.nodup_singleton _
  length := by simp [maxEventNumber]
  ready ev hev := by
    rw [List.mem_singleton.mp hev]
    exact ⟨.inr (.inl rfl), hready⟩
  readable b hb := by
    cases List.mem_singleton.mp hb
    exact ⟨rfl, hread⟩

/-- A child that sleeps has taken the event of the signal pipe, or there is nothing to read. -/
theorem Asleep.read (h : Asleep pipefd sigfd st) : ¬ (st.unread ≠ [] ∧ Edge sigfd st) := by
  rintro ⟨hread, hedge⟩
  have hready : st.ready sigfd = true := hedge.resolve_right (by rw [h.phase]; simp [Phase.events])
  cases h.quiet _ (reports_signals hready hread)

theorem run_reaping (hcap : 0 < cap) (hsig : sigfd ≠ pipefd) {users : Nat → K.Obj}
    (hrun : Run (Step cap pipefd sigfd) (.init users) acts st) : Over st ∨ Reaping cap sigfd st := by
  refine hrun.invariant (I := fun st => Over st ∨ Reaping cap sigfd st) (fun st act st' h hstep => ?_)
    (.inr ⟨Nat.zero_le _, fun hfull => absurd hfull hcap.ne, fun hz => absurd hz (Nat.lt_irrefl 0)⟩)
  exact hstep.keeps hsig h fun hreap he => he.reaping hcap hreap

/-- Whenever a child sleeps, no process that its clients started has ended without being waited
    for, however the signals were merged and however many the pipe has lost. -/
theorem asleep_reaped (hcap : 0 < cap) (hsig : sigfd ≠ pipefd) {users : Nat → K.Obj}
    (hrun : Run (Step cap pipefd sigfd) (.init users) acts st) (hasleep : Asleep pipefd sigfd st) :
    st.zombies = 0 := by
  have hreap := (run_reaping hcap hsig hrun).resolve_left hasleep.not_over
  by_contra hne
  rcases hreap.due (Nat.pos_of_ne_zero hne) with hp | hs | hd | ht
  · rw [hasleep.pending] at hp
    cases hp
  · rw [hasleep.stop] at hs
    cases hs
  · exact hasleep.read hd
  · rw [hasleep.phase] at ht
    exact ht rfl

/-- A process has ended, and a child at rest waits for it. -/
theorem reap_run (hphase : st.phase = .wait) (hstop : st.stop = false) (hunread : st.unread = [])
    (hrunning : 0 < st.running) (hzombies : st.zombies = 0) (hsig : sigfd ≠ pipefd) :
    Run (Step (cap + 1) pipefd sigfd) st
      [.exit, .deliver true, .wait [(sigfd, true)], .recvSignals 1, .signal .chld, .signal .chld, .done, .done]
      { st with ready := fun x => Function.update st.ready sigfd true x && x ∉ [sigfd]
                running := st.running - 1, pending := false } := by
  obtain ⟨phase, stop, users, table, ready, conns, unread, running, zombies, pending⟩ := st
  obtain rfl : phase = .wait := hphase
  obtain rfl : stop = false := hstop
  obtain rfl : unread = [] := hunread
  obtain rfl : zombies = 0 := hzombies
  have hready : Function.update ready sigfd true sigfd = true := Function.update_self ..
  exact .cons (.exit hrunning) (.cons (.deliver rfl) (.cons (.wait rfl rfl (reports_signals hready (List.cons_ne_nil _ _)))
    (.cons (.recvSignals rfl hsig (List.cons_ne_nil _ _)) (.cons (.signal rfl) (.cons (.signal rfl)
      (.cons (.signalsDone rfl) (.cons (.done rfl) (.nil _))))))))

/-- The program that a request has started ends, and the child waits for it. -/
theorem asleep_reaped_one : ∃ st : State Cgi.cgiClient, st.zombies = 0 ∧
    st.conns = [⟨7, Cgi.requestCalls⟩] ∧ st.running = 0 := by
  obtain ⟨st, hrun, hphase, hstop, htable, hready, hconns, hunread, hrunning, hzombies⟩ := Cgi.request_run
  have hreap := @reap_run _ 7 3 4 st hphase hstop hunread (by omega) hzombies (by decide)
  refine ⟨_, asleep_reaped (by decide) (by decide) (Run.append_iff.mpr ⟨st, hrun, hreap⟩)
    ⟨hphase, hstop, rfl, fun events hrep => ?_⟩, hconns, ?_⟩
  · refine List.eq_nil_iff_forall_not_mem.mpr fun ev hev => ?_
    have hev := (hrep.ready ev hev).2
    by_cases h4 : ev.1 = 4
    · simp [h4] at hev
    · simp [Function.update_of_ne h4, hready] at hev
  · simp [hrunning]

-- ---------------------------------------------------------------------------
-- The signals to stop
-- ---------------------------------------------------------------------------

/-- A byte in the pipe or in the buffer stands for a signal. -/
structure Caused (acts : List Action) (st : State K) : Prop where
  bytes : ∀ sig ∈ st.phase.todo ++ st.unread, sig ≠ .chld → .raise sig true ∈ acts
  stop : st.stop = true → ∃ sig, sig ≠ .chld ∧ .raise sig true ∈ acts

/-- A signal to stop that found room is still to be read, or has been obeyed. -/
structure Kept (sigfd : Nat) (acts : List Action) (st : State K) : Prop where
  bytes : ∀ sig, sig ≠ .chld → .raise sig true ∈ acts →
    st.stop = true ∨ ∃ sig' ∈ st.phase.todo ++ st.unread, sig' ≠ .chld
  edge : st.unread ≠ [] → Edge sigfd st

theorem Effect.caused (h : Caused acts st) (he : Effect cap sigfd st st' act) : Caused (acts ++ [act]) st' := by
  have hstop : ∀ {b : Bool}, b = st.stop → b = true → ∃ sig, sig ≠ .chld ∧ .raise sig true ∈ acts ++ [act] :=
    fun heq hs => (h.stop (heq.symm.trans hs)).imp fun sig hsig => ⟨hsig.1, List.mem_append_left _ hsig.2⟩
  have hbytes : ∀ {sig : Signal}, sig ∈ st.phase.todo ++ st.unread → sig ≠ .chld →
      .raise sig true ∈ acts ++ [act] := fun hmem hne => List.mem_append_left _ (h.bytes _ hmem hne)
  cases he with
  | other _ hsame hunread _ _ =>
    refine ⟨fun sig hmem => ?_, hstop hsame.stop⟩
    rw [hsame.todo, hunread] at hmem
    exact hbytes hmem
  | sent sig _ hsame hunread _ _ _ hact =>
    refine ⟨fun sig' hmem hne => ?_, hstop hsame.stop⟩
    rw [hsame.todo, hunread, ← List.append_assoc, List.mem_append] at hmem
    rcases hmem with hmem | hmem
    · exact hbytes hmem hne
    · obtain rfl := List.mem_singleton.mp hmem
      exact List.mem_append_right _ (List.mem_singleton.mpr (hact hne).symm)
  | full _ _ hsame hunread _ =>
    refine ⟨fun sig hmem => ?_, hstop hsame.stop⟩
    rw [hsame.todo, hunread] at hmem
    exact hbytes hmem
  | exit => exact ⟨fun _ => hbytes, hstop rfl⟩
  | recv hphase _ =>
    refine ⟨fun sig hmem => ?_, hstop rfl⟩
    simp only [Phase.todo, List.take_append_drop] at hmem
    exact hbytes (List.mem_append_right _ hmem)
  | @signal sig rest events hphase =>
    have hrest : ∀ {sig'}, sig' ∈ rest ++ st.unread → sig' ∈ st.phase.todo ++ st.unread := fun hmem => by
      rw [hphase]
      exact List.mem_cons_of_mem _ hmem
    have hsig : sig ∈ st.phase.todo ++ st.unread := by
      rw [hphase]
      exact List.mem_cons_self
    cases sig with
    | chld =>
      rw [State.onSignal]
      split
      · exact ⟨fun _ => hbytes, hstop rfl⟩
      · exact ⟨fun _ hmem => hbytes (hrest hmem), hstop rfl⟩
    | term => exact ⟨fun _ hmem => hbytes (hrest hmem), fun _ => ⟨.term, by simp, hbytes hsig (by simp)⟩⟩
    | int => exact ⟨fun _ hmem => hbytes (hrest hmem), fun _ => ⟨.int, by simp, hbytes hsig (by simp)⟩⟩

theorem Effect.kept (h : Kept sigfd acts st) (he : Effect cap sigfd st st' act)
    (hsmall : ∀ n, act = .recvSignals n → n ≤ signalsSize) : Kept sigfd (acts ++ [act]) st' := by
  have hold : ∀ {sig : Signal}, (∀ sig', act ≠ .raise sig' true) → .raise sig true ∈ acts ++ [act] →
      .raise sig true ∈ acts := fun hact hmem =>
    (List.mem_append.mp hmem).resolve_right fun h => hact _ (List.mem_singleton.mp h).symm
  cases he with
  | other hact hsame hunread _ hedge =>
    refine ⟨fun sig hne hmem => ?_, fun hread => ?_⟩
    · rw [hsame.stop, hsame.todo, hunread]
      exact h.bytes sig hne (hold hact hmem)
    · rw [hunread] at hread
      exact hedge hread (h.edge hread)
  | sent sig _ hsame hunread _ hedge hact _ =>
    refine ⟨fun sig' hne hmem => ?_, fun _ => hedge⟩
    rw [hsame.stop, hsame.todo, hunread, ← List.append_assoc]
    rcases List.mem_append.mp hmem with hmem | hmem
    · refine (h.bytes sig' hne hmem).imp_right ?_
      rintro ⟨sig'', hmem'', hne''⟩
      exact ⟨sig'', List.mem_append_left _ hmem'', hne''⟩
    · obtain rfl := hact sig' (List.mem_singleton.mp hmem).symm
      exact .inr ⟨sig', by simp, hne⟩
  | full hact _ hsame hunread hedge =>
    refine ⟨fun sig hne hmem => ?_, fun hread => ?_⟩
    · rw [hsame.stop, hsame.todo, hunread]
      exact h.bytes sig hne (hold hact hmem)
    · rw [hunread] at hread
      exact hedge (h.edge hread)
  | exit => exact ⟨fun sig hne hmem => h.bytes sig hne (hold (by simp) hmem), h.edge⟩
  | recv hphase hread =>
    -- one `recv` takes all there is
    have hdrop : st.unread.drop signalsSize = [] := List.drop_eq_nil_of_le (hsmall _ rfl)
    refine ⟨fun sig hne hmem => ?_, fun hread' => absurd hdrop hread'⟩
    have hbytes := h.bytes sig hne (hold (by simp) hmem)
    rw [hphase] at hbytes
    simpa only [Phase.todo, List.take_append_drop, List.nil_append] using hbytes
  | @signal sig rest events hphase =>
    have hbytes : ∀ {sig' : Signal}, sig' ≠ .chld → .raise sig' true ∈ acts ++ [.signal sig] →
        st.stop = true ∨ ∃ sig'' ∈ (sig :: rest) ++ st.unread, sig'' ≠ .chld := fun hne hmem => by
      have hb := h.bytes _ hne (hold (by simp) hmem)
      rwa [hphase] at hb
    cases sig with
    | chld =>
      rw [State.onSignal]
      split
      · refine ⟨fun sig hne hmem => ?_, h.edge⟩
        have hb := hbytes hne hmem
        rwa [← show st.phase.todo = .chld :: rest by rw [hphase]; rfl] at hb
      · refine ⟨fun sig hne hmem => (hbytes hne hmem).imp_right ?_, fun hread => (h.edge hread).signal hphase rfl rfl⟩
        rintro ⟨sig', hmem', hne'⟩
        exact ⟨sig', (List.mem_cons.mp hmem').resolve_left hne', hne'⟩
    | term => exact ⟨fun _ _ _ => .inl rfl, fun hread => (h.edge hread).signal hphase rfl rfl⟩
    | int => exact ⟨fun _ _ _ => .inl rfl, fun hread => (h.edge hread).signal hphase rfl rfl⟩

theorem run_caused (hsig : sigfd ≠ pipefd) {users : Nat → K.Obj}
    (hrun : Run (Step cap pipefd sigfd) (.init users) acts st) :
    (st.stop = true → ∃ sig, sig ≠ .chld ∧ .raise sig true ∈ acts) ∧ (Over st ∨ Caused acts st) := by
  refine hrun.history (I := fun acts st => (st.stop = true → ∃ sig, sig ≠ .chld ∧ .raise sig true ∈ acts) ∧
    (Over st ∨ Caused acts st)) (fun acts st act st' h hstep => ?_) ⟨by simp [State.init], .inr ⟨?_, ?_⟩⟩
  · rcases hstep.keeps hsig h.2 fun hcaused he => he.caused hcaused with hover | hcaused
    · refine ⟨fun hs => ?_, .inl hover⟩
      obtain ⟨sig, hne, hmem⟩ := h.1 ((hstep.over_stop hover).symm.trans hs)
      exact ⟨sig, hne, List.mem_append_left _ hmem⟩
    · exact ⟨hcaused.stop, .inr hcaused⟩
  · simp [State.init, Phase.todo]
  · simp [State.init]

theorem run_kept (hsig : sigfd ≠ pipefd) {users : Nat → K.Obj}
    (hrun : Run (Step cap pipefd sigfd) (.init users) acts st)
    (hsmall : ∀ n, .recvSignals n ∈ acts → n ≤ signalsSize) : Over st ∨ Kept sigfd acts st := by
  have hlabels := hrun.and_labels (P := fun act => ∀ n, act = .recvSignals n → n ≤ signalsSize)
    fun act hact n heq => hsmall n (heq ▸ hact)
  refine hlabels.history (I := fun acts st => Over st ∨ Kept sigfd acts st) (fun acts st act st' h hstep => ?_)
    (.inr ⟨by simp, by simp [State.init]⟩)
  exact hstep.1.keeps hsig h fun hkept he => he.kept hkept hstep.2

/-- A child stops for a signal that tells it to, and for nothing else: if its flag is set there
    was one, and while it sleeps there was none but those that the pipe had no room for, as long
    as no more signals wait than one `recv` takes. -/
theorem stop_signalled (hsig : sigfd ≠ pipefd) {users : Nat → K.Obj}
    (hrun : Run (Step cap pipefd sigfd) (.init users) acts st) :
    (st.stop = true → ∃ sig, sig ≠ .chld ∧ .raise sig true ∈ acts) ∧
      ((∀ n, .recvSignals n ∈ acts → n ≤ signalsSize) → Asleep pipefd sigfd st →
        ∀ sig, sig ≠ .chld → .raise sig true ∉ acts) := by
  refine ⟨(run_caused hsig hrun).1, fun hsmall hasleep sig hne hmem => ?_⟩
  have hkept := (run_kept hsig hrun hsmall).resolve_left hasleep.not_over
  rcases hkept.bytes sig hne hmem with hs | ⟨sig', hmem', -⟩
  · rw [hasleep.stop] at hs
    cases hs
  · rw [hasleep.phase] at hmem'
    have hread : st.unread ≠ [] := List.ne_nil_of_mem hmem'
    exact hasleep.read ⟨hread, hkept.edge hread⟩

/-- `SIGTERM` comes while the child waits. -/
theorem stop_signalled_term : ∃ (acts : List Action) (st : State Cgi.cgiClient),
    Run (Step (K := Cgi.cgiClient) 8 3 4) (.init fun _ => ⟨0, fun _ => 0, 0⟩) acts st ∧ st.stop = true ∧
    (st.stop = true → ∃ sig, sig ≠ .chld ∧ .raise sig true ∈ acts) ∧
      ((∀ n, .recvSignals n ∈ acts → n ≤ signalsSize) → Asleep 3 4 st →
        ∀ sig, sig ≠ .chld → .raise sig true ∉ acts) := by
  have hrun : Run (Step (K := Cgi.cgiClient) 8 3 4) (.init fun _ => ⟨0, fun _ => 0, 0⟩)
      [.raise .term true, .wait [(4, true)], .recvSignals 1, .signal .term] _ :=
    .cons (.raise .term) (.cons (.wait rfl rfl (reports_signals rfl (List.cons_ne_nil _ _)))
      (.cons (.recvSignals rfl (by decide) (List.cons_ne_nil _ _)) (.cons (.signal rfl) (.nil _))))
  exact ⟨_, _, hrun, rfl, stop_signalled (by decide) hrun⟩

end RunChild

end ProcessPool
