-- SUMMARY: What a child of the process pool does for its clients: each connection has an object of its own from accept to close, whatever happens around it.
import Mathlib.Data.List.Nodup
import LinuxLearning.ProcessPool.Child

/-!
# The clients of a child

Descriptors are used again, and so are the objects in `users`. A connection nevertheless sees
nothing of the others: the calls made for it are those of one object that was initialised for
it and that nobody else calls as long as it is open.
-/

namespace ProcessPool

open Memory Transition

namespace RunChild

variable {K : ClientClass} {cap pipefd sigfd : Nat} {st st' : State K} {fd : Nat}

/-- What an object goes through that serves one connection alone, and the calls it has made. -/
inductive Session (K : ClientClass) (fd : Nat) : K.Obj → List K.Call → Prop where
  | accepted (obj : K.Obj) : Session K fd (K.init obj fd) []
  | process {obj obj' : K.Obj} {log calls : List K.Call} {a : K.Answers} : Session K fd obj log →
      (fd : Int) ∉ K.closed log → K.Admits obj a → K.process obj a = .ok (obj', calls) →
      Session K fd obj' (log ++ calls)

/-- As long as its socket is open, `process` of an object returns, and it closes no other one. -/
def ClientClass.Lawful (K : ClientClass) : Prop :=
  ∀ {fd : Nat} {obj : K.Obj} {log : List K.Call} {a : K.Answers}, Session K fd obj log →
    (fd : Int) ∉ K.closed log → K.Admits obj a →
    ∃ obj' calls, K.process obj a = .ok (obj', calls) ∧ ∀ x ∈ K.closed calls, x = fd

theorem closed_append (calls calls' : List K.Call) :
    K.closed (calls ++ calls') = K.closed calls ++ K.closed calls' :=
  List.filterMap_append

theorem processed_closed {obj : K.Obj} {calls : List K.Call} (h : (fd : Int) ∈ K.closed calls) :
    (st.processed fd obj calls).table fd = none :=
  if_pos h

/-- A descriptor that is not closed stays what it was. -/
theorem processed_open {obj : K.Obj} {calls : List K.Call} {x : Nat} (h : (x : Int) ∉ K.closed calls) :
    (st.processed fd obj calls).table x = st.table x :=
  if_neg h

-- ---------------------------------------------------------------------------
-- What the steps leave alone
-- ---------------------------------------------------------------------------

@[simp] theorem handler_phase (sig : Signal) : (st.handler cap sigfd sig).phase = st.phase := by
  unfold State.handler
  split <;> rfl

@[simp] theorem handler_table (sig : Signal) : (st.handler cap sigfd sig).table = st.table := by
  unfold State.handler
  split <;> rfl

@[simp] theorem handler_users (sig : Signal) : (st.handler cap sigfd sig).users = st.users := by
  unfold State.handler
  split <;> rfl

@[simp] theorem handler_conns (sig : Signal) : (st.handler cap sigfd sig).conns = st.conns := by
  unfold State.handler
  split <;> rfl

-- ---------------------------------------------------------------------------
-- The invariant
-- ---------------------------------------------------------------------------

/-- A connection that is open has its descriptor and the object there to itself, and each
    event that is left to handle is one of a descriptor that is open. -/
structure Serving (pipefd sigfd : Nat) (st : State K) : Prop where
  alive : st.phase ≠ .crashed
  nodup : (st.phase.events.map Prod.fst).Nodup
  registered : ∀ ev ∈ st.phase.events, Registered pipefd sigfd st ev.1
  bound : ∀ fd k, st.table fd = some k → fd < userPerProcess
  owner : ∀ fd k, st.table fd = some k → ∃ calls, st.conns[k]? = some ⟨fd, calls⟩ ∧
    (fd : Int) ∉ K.closed calls ∧ Session K fd (st.users fd) calls
  session : ∀ (k : Nat) (c : Conn K), st.conns[k]? = some c → ∃ obj, Session K c.fd obj c.calls
  held : ∀ (k : Nat) (c : Conn K), st.conns[k]? = some c → (c.fd : Int) ∉ K.closed c.calls → st.table c.fd = some k

/-- A step that has nothing to do with the clients, and at most drops events. -/
theorem Serving.frame (h : Serving pipefd sigfd st) (htable : st'.table = st.table)
    (husers : st'.users = st.users) (hconns : st'.conns = st.conns) (hphase : st'.phase ≠ .crashed)
    (hevents : st'.phase.events.Sublist st.phase.events) : Serving pipefd sigfd st' where
  alive := hphase
  nodup := h.nodup.sublist (hevents.map _)
  registered ev hev := by
    rw [Registered, htable]
    exact h.registered ev (hevents.subset hev)
  bound fd k := by
    rw [htable]
    exact h.bound fd k
  owner fd k := by
    rw [htable, hconns, husers]
    exact h.owner fd k
  session k c := by
    rw [hconns]
    exact h.session k c
  held k c := by
    rw [hconns, htable]
    exact h.held k c

theorem Serving.unique {k : Nat} (h : Serving pipefd sigfd st) {fd' : Nat} (hfd : st.table fd = some k)
    (hfd' : st.table fd' = some k) : fd = fd' := by
  obtain ⟨calls, hget, -⟩ := h.owner fd k hfd
  obtain ⟨calls', hget', -⟩ := h.owner fd' k hfd'
  have heq := Option.some.inj (hget.symm.trans hget')
  exact congrArg Conn.fd heq

/-- The new connection is the last one, and the others are at other descriptors. -/
theorem Serving.accept (h : Serving pipefd sigfd st) {events : List Event} {readable : Bool}
    (hphase : st.phase = .accepting events) (hunused : Unused pipefd sigfd st fd) (hbound : fd < userPerProcess) :
    Serving pipefd sigfd { st.accepted fd readable with phase := .handling events } := by
  have hnone : st.table fd = none := by
    by_contra hne
    exact hunused (.inr (.inr hne))
  have hold : ∀ k c, st.conns[k]? = some c →
      (st.conns ++ [(⟨fd, []⟩ : Conn K)])[k]? = some c := fun k c hget => by
    rw [List.getElem?_append_left (List.getElem?_eq_some_iff.mp hget).1]
    exact hget
  have hnew : ∀ k c, (st.conns ++ [(⟨fd, []⟩ : Conn K)])[k]? = some c →
      st.conns[k]? = some c ∨ k = st.conns.length ∧ c = ⟨fd, []⟩ := fun k c hget => by
    rw [List.getElem?_append] at hget
    split at hget
    · exact .inl hget
    · rw [List.getElem?_singleton] at hget
      split at hget
      · exact .inr ⟨by omega, (Option.some.inj hget).symm⟩
      · cases hget
  have hevents : st.phase.events = events := by rw [hphase]; rfl
  refine ⟨by simp, ?_, fun ev hev => ?_, fun fd' k hk => ?_, fun fd' k hk => ?_, fun k c hget => ?_,
    fun k c hget hopen => ?_⟩
  · have hnodup := h.nodup
    rwa [hevents] at hnodup
  · have hreg := h.registered ev (hevents ▸ hev)
    refine hreg.imp_right (Or.imp_right fun hne => ?_)
    have hne' : ev.1 ≠ fd := by
      rintro rfl
      exact hne hnone
    simpa [State.accepted, Function.update_of_ne hne'] using hne
  · by_cases hfd : fd' = fd
    · exact hfd ▸ hbound
    · simp only [State.accepted, Function.update_of_ne hfd] at hk
      exact h.bound fd' k hk
  · by_cases hfd : fd' = fd
    · subst hfd
      simp only [State.accepted, Function.update_self, Option.some.injEq] at hk ⊢
      subst hk
      exact ⟨[], by simp, by simp [ClientClass.closed], .accepted _⟩
    · simp only [State.accepted, Function.update_of_ne hfd] at hk ⊢
      obtain ⟨calls, hget, hopen, hsession⟩ := h.owner fd' k hk
      exact ⟨calls, hold k _ hget, hopen, hsession⟩
  · rcases hnew k c hget with hget | ⟨-, rfl⟩
    · exact h.session k c hget
    · exact ⟨_, .accepted (st.users fd)⟩
  · rcases hnew k c hget with hget | ⟨rfl, rfl⟩
    · have hk := h.held k c hget hopen
      have hfd : c.fd ≠ fd := by
        intro heq
        rw [heq, hnone] at hk
        cases hk
      simpa [State.accepted, Function.update_of_ne hfd] using hk
    · exact Function.update_self ..

/-- `process` of the object of an open connection goes on with its session. -/
theorem Serving.process (h : Serving pipefd sigfd st) {events : List Event} {k : Nat} {obj : K.Obj}
    {calls : List K.Call} {a : K.Answers} (hphase : st.phase = .handling ((fd, true) :: events))
    (hk : st.table fd = some k) (ha : K.Admits (st.users fd) a)
    (hrun : K.process (st.users fd) a = .ok (obj, calls)) (hown : ∀ x ∈ K.closed calls, x = fd) :
    Serving pipefd sigfd { st.processed fd obj calls with phase := .handling events } := by
  obtain ⟨log, hget, hopen, hsession⟩ := h.owner fd k hk
  have hevents : st.phase.events = (fd, true) :: events := by rw [hphase]; rfl
  have hnodup := h.nodup
  rw [hevents, List.map_cons, List.nodup_cons] at hnodup
  -- only the descriptor itself may leave the table
  have htable : ∀ x, x ≠ fd → (st.processed fd obj calls).table x = st.table x := fun x hx =>
    processed_open fun hmem => hx (Int.ofNat.inj (hown x hmem))
  have hconns : (st.processed fd obj calls).conns =
      st.conns.modify k fun c => { c with calls := c.calls ++ calls } := by
    simp only [State.processed, hk]
  have hget' : (st.processed fd obj calls).conns[k]? = some ⟨fd, log ++ calls⟩ := by
    rw [hconns, List.getElem?_modify_eq, hget]
    rfl
  have hother : ∀ k', k' ≠ k → (st.processed fd obj calls).conns[k']? = st.conns[k']? := fun k' hne => by
    rw [hconns, List.getElem?_modify]
    simp [Ne.symm hne]
  refine ⟨by simp, hnodup.2, fun ev hev => ?_, fun fd' k' hk' => ?_, fun fd' k' hk' => ?_,
    fun k' c hc => ?_, fun k' c hc hcopen => ?_⟩
  · have hne : ev.1 ≠ fd := by
      rintro rfl
      exact hnodup.1 (List.mem_map.mpr ⟨ev, hev, rfl⟩)
    refine (h.registered ev (hevents ▸ List.mem_cons_of_mem _ hev)).imp_right (Or.imp_right fun hreg => ?_)
    exact (htable ev.1 hne).trans_ne hreg
  · by_cases hfd : fd' = fd
    · exact hfd ▸ h.bound fd k hk
    · exact h.bound fd' k' ((htable fd' hfd).symm.trans hk')
  · by_cases hfd : fd' = fd
    · subst hfd
      change (st.processed fd' obj calls).table fd' = some k' at hk'
      have hcalls : (fd' : Int) ∉ K.closed calls := fun hmem => by
        rw [processed_closed hmem] at hk'
        cases hk'
      rw [processed_open hcalls] at hk'
      obtain rfl := Option.some.inj (hk.symm.trans hk')
      refine ⟨log ++ calls, hget', ?_, ?_⟩
      · rw [closed_append, List.mem_append, not_or]
        exact ⟨hopen, hcalls⟩
      · simpa [State.processed] using hsession.process hopen ha hrun
    · have hk₀ := (htable fd' hfd).symm.trans hk'
      have hne : k' ≠ k := by
        rintro rfl
        exact hfd (h.unique hk₀ hk)
      obtain ⟨calls', hget₀, hopen₀, hsession₀⟩ := h.owner fd' k' hk₀
      refine ⟨calls', (hother k' hne).trans hget₀, hopen₀, ?_⟩
      simpa [State.processed, Function.update_of_ne hfd] using hsession₀
  · by_cases hne : k' = k
    · subst hne
      obtain rfl := Option.some.inj (hget'.symm.trans hc)
      exact ⟨obj, hsession.process hopen ha hrun⟩
    · exact h.session k' c ((hother k' hne).symm.trans hc)
  · by_cases hne : k' = k
    · subst hne
      obtain rfl := Option.some.inj (hget'.symm.trans hc)
      rw [closed_append, List.mem_append, not_or] at hcopen
      change (st.processed fd obj calls).table fd = some k'
      rw [processed_open hcopen.2, hk]
    · have hk₀ := h.held k' c ((hother k' hne).symm.trans hc) hcopen
      have hfd : c.fd ≠ fd := by
        intro heq
        rw [heq, hk] at hk₀
        exact hne (Option.some.inj hk₀).symm
      exact (htable c.fd hfd).trans hk₀

theorem Serving.wait (h : Serving pipefd sigfd st) {events : List Event}
    (hrep : Reports pipefd sigfd st events) : Serving pipefd sigfd
      { st with phase := .handling events, ready := fun fd => st.ready fd && fd ∉ events.map Prod.fst } where
  alive := by simp
  nodup := hrep.nodup
  registered ev hev := (hrep.ready ev hev).1
  bound := h.bound
  owner := h.owner
  session := h.session
  held := h.held

theorem Serving.onSignal (h : Serving pipefd sigfd st) {sig : Signal} {rest : List Signal}
    {events : List Event} (hphase : st.phase = .signals (sig :: rest) events) :
    Serving pipefd sigfd (st.onSignal rest events sig) := by
  have hdone : (Phase.signals rest events).events.Sublist st.phase.events := by
    rw [hphase]
    exact List.Sublist.refl _
  cases sig with
  | chld =>
    rw [State.onSignal]
    split
    · exact h.frame rfl rfl rfl h.alive (List.Sublist.refl _)
    · exact h.frame rfl rfl rfl (by simp) hdone
  | term => exact h.frame rfl rfl rfl (by simp [State.onSignal]) hdone
  | int => exact h.frame rfl rfl rfl (by simp [State.onSignal]) hdone

/-- Every step keeps the invariant, as long as `accept` returns descriptors that `users` has
    room for. -/
theorem Step.serving (hK : K.Lawful) (h : Serving pipefd sigfd st) {act : Action}
    (hstep : Step cap pipefd sigfd st act st') (hbound : ∀ fd, act = .accept (some fd) → fd < userPerProcess) :
    Serving pipefd sigfd st' := by
  -- the step goes on with the events behind the first one
  have hdrop : ∀ {phase : Phase} {ev : Event} {events : List Event}, st.phase = .handling (ev :: events) →
      phase.events = events → phase.events.Sublist st.phase.events := by
    rintro phase ev events hphase rfl
    rw [hphase]
    exact List.sublist_cons_self _ _
  have hkeep : ∀ {phase : Phase}, phase.events = st.phase.events → phase.events.Sublist st.phase.events :=
    fun heq => heq ▸ List.Sublist.refl _
  -- an event that is neither of the pipe nor of the signals is one of a connection
  have hclient : ∀ {fd : Nat} {events : List Event}, st.phase = .handling ((fd, true) :: events) →
      fd ≠ pipefd → fd ≠ sigfd → ∃ k, st.table fd = some k := by
    intro fd events hphase hpipe hsig
    have hreg := h.registered (fd, true) (by rw [hphase]; exact List.mem_cons_self)
    exact Option.ne_none_iff_exists'.mp ((hreg.resolve_left hpipe).resolve_left hsig)
  cases hstep with
  | notify => exact h.frame rfl rfl rfl h.alive (List.Sublist.refl _)
  | arrive _ => exact h.frame rfl rfl rfl h.alive (List.Sublist.refl _)
  | raise sig => exact h.frame (by simp) (by simp) (by simp) (by simpa using h.alive) (hkeep (by simp))
  | exit _ => exact h.frame rfl rfl rfl h.alive (List.Sublist.refl _)
  | deliver _ => exact h.frame (by simp) (by simp) (by simp) (by simpa using h.alive) (hkeep (by simp))
  | wait _ _ hrep => exact h.wait hrep
  | fail _ _ => exact h.frame rfl rfl rfl (by simp) (List.nil_sublist _)
  | leave _ _ => exact h.frame rfl rfl rfl (by simp) (List.nil_sublist _)
  | done _ => exact h.frame rfl rfl rfl (by simp) (List.nil_sublist _)
  | recvPipe ret hphase =>
    cases ret with
    | false => exact h.frame rfl rfl rfl (by simp) (hdrop hphase rfl)
    | true => exact h.frame rfl rfl rfl (by simp) (hdrop hphase rfl)
  | acceptFails hphase => exact h.frame rfl rfl rfl (by simp) (hkeep (by rw [hphase]; rfl))
  | accept readable hphase hunused hlt => exact h.accept hphase hunused hlt
  | acceptBeyond _ _ hge => exact absurd (hbound _ rfl) (Nat.not_lt.mpr hge)
  | recvNothing hphase _ _ => exact h.frame rfl rfl rfl (by simp) (hdrop hphase rfl)
  | recvSignals hphase _ _ => exact h.frame rfl rfl rfl (by simp) (hdrop hphase rfl)
  | signal hphase => exact h.onSignal hphase
  | signalsDone hphase => exact h.frame rfl rfl rfl (by simp) (hkeep (by rw [hphase]; rfl))
  | process hphase hpipe hsig _ ha hrun =>
    obtain ⟨k, hk⟩ := hclient hphase hpipe hsig
    obtain ⟨log, -, hopen, hsession⟩ := h.owner _ k hk
    obtain ⟨obj', calls', hrun', hown⟩ := hK hsession hopen ha
    cases hrun.symm.trans hrun'
    exact h.process hphase hk ha hrun hown
  | processFaults hphase hpipe hsig _ ha hrun =>
    obtain ⟨k, hk⟩ := hclient hphase hpipe hsig
    obtain ⟨log, -, hopen, hsession⟩ := h.owner _ k hk
    obtain ⟨obj', calls', hrun', -⟩ := hK hsession hopen ha
    cases hrun.symm.trans hrun'
  | processBeyond hphase hpipe hsig hge =>
    obtain ⟨k, hk⟩ := hclient hphase hpipe hsig
    exact absurd (h.bound _ k hk) (Nat.not_lt.mpr hge)
  | skip hphase => exact h.frame rfl rfl rfl (by simp) (hdrop hphase rfl)

theorem init_serving (users : Nat → K.Obj) : Serving pipefd sigfd (.init users) where
  alive := by simp [State.init]
  nodup := List.nodup_nil
  registered := by simp [State.init, Phase.events]
  bound := by simp [State.init]
  owner := by simp [State.init]
  session := by simp [State.init]
  held := by simp [State.init]

theorem run_serving (hK : K.Lawful) {users : Nat → K.Obj} {acts : List Action}
    (hrun : Run (Step cap pipefd sigfd) (.init users) acts st)
    (hbound : ∀ fd, .accept (some fd) ∈ acts → fd < userPerProcess) : Serving pipefd sigfd st := by
  have hlabels := hrun.and_labels (P := fun act => ∀ fd, act = .accept (some fd) → fd < userPerProcess)
    fun act hact fd heq => hbound fd (heq ▸ hact)
  exact hlabels.invariant (fun _ _ _ h hstep => hstep.1.serving hK h hstep.2) (init_serving users)

-- ---------------------------------------------------------------------------
-- Rounds of the loop
-- ---------------------------------------------------------------------------

theorem reports_one (hreg : Registered pipefd sigfd st fd) (hready : st.ready fd = true) (hne : fd ≠ sigfd) :
    Reports pipefd sigfd st [(fd, true)] where
  nodup := List.nodup_singleton _
  length := by simp [maxEventNumber]
  ready := by simpa using ⟨hreg, hready⟩
  readable := by simp [Ne.symm hne]

/-- A child at rest takes a connection that it is notified of. -/
theorem connect_run (hphase : st.phase = .wait) (hstop : st.stop = false) (hne : pipefd ≠ sigfd)
    (hunused : Unused pipefd sigfd st fd) (hlt : fd < userPerProcess) : ∃ ready,
    Run (Step cap pipefd sigfd) st [.notify, .wait [(pipefd, true)], .recvPipe true, .accept (some fd), .done]
      { st.accepted fd true with ready := ready } ∧
    ready fd = true ∧ ∀ x, x ≠ fd → ready x = true → st.ready x = true := by
  obtain ⟨phase, stop, users, table, ready, conns, unread, running, zombies, pending⟩ := st
  obtain rfl : phase = .wait := hphase
  obtain rfl : stop = false := hstop
  refine ⟨_, .cons .notify (.cons (.wait rfl rfl ?_) (.cons (.recvPipe true rfl)
    (.cons (.accept true rfl hunused hlt) (.cons (.done rfl) (.nil _))))), Function.update_self .., fun x hx => ?_⟩
  · exact reports_one (.inl rfl) (Function.update_self ..) hne
  · simp only [State.accepted, Function.update_of_ne hx]
    by_cases hpipe : x = pipefd
    · simp [hpipe]
    · simp [hpipe]

/-- It calls `process` for a client that has sent something. -/
theorem process_run {obj : K.Obj} {calls : List K.Call} {a : K.Answers} (hphase : st.phase = .wait)
    (hstop : st.stop = false) (htable : st.table fd ≠ none) (hready : st.ready fd = true) (hpipe : fd ≠ pipefd)
    (hsig : fd ≠ sigfd) (hlt : fd < userPerProcess) (ha : K.Admits (st.users fd) a)
    (hrun : K.process (st.users fd) a = .ok (obj, calls)) :
    Run (Step cap pipefd sigfd) st [.wait [(fd, true)], .process fd, .done]
      { st.processed fd obj calls with ready := fun x => st.ready x && x ∉ [fd] } := by
  obtain ⟨phase, stop, users, table, ready, conns, unread, running, zombies, pending⟩ := st
  obtain rfl : phase = .wait := hphase
  obtain rfl : stop = false := hstop
  exact .cons (.wait rfl rfl (reports_one (.inr (.inr htable)) hready hsig)) (.cons (.process rfl hpipe hsig hlt ha hrun) (.cons (.done rfl) (.nil _)))

end RunChild

end ProcessPool
