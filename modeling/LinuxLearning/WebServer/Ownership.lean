-- SUMMARY: Who holds a descriptor of the web server, and what a step does to the holder.
import LinuxLearning.WebServer.Server

/-!
# Ownership of a connection

A descriptor number is in one phase. A step changes the phase of the number it works
on, and leaves all that concerns another number as it is.
-/

namespace WebServer

open Http

/-- Where a descriptor is. `lost` is an open connection that all have dropped. -/
inductive Phase where
  | closed
  | lost
  | armed
  | reported
  | queued
  | held (τ : Thread) (st : Stage)
deriving Repr, DecidableEq

/-- The thread is still to close the descriptor, or to hand it on. -/
def Stage.Holds : Stage → Prop
  | .closing .reset | .closing .count | .modfdClosed => False
  | _ => True

/-- The descriptor is open, and `init` has not given it to the object. -/
def Stage.Fresh : Stage → Prop
  | .accepted | .refuse | .init .sock => True
  | _ => False

/-- What epoll has of the descriptor a thread holds. The main loop may be about to close an
    armed descriptor: it waits for no events meanwhile. -/
def Stage.Registers (τ : Thread) : Stage → Option (Option Interest) → Prop
  | .accepted, r | .refuse, r | .init .sock, r | .init .add, r => r = none
  | .init _, r => τ = .main ∧ ∃ ev, r = some (some ev)
  | .closing (.close _), r => r = none
  | .closing .check, r | .closing .epollDel, r => r = some none ∨ τ = .main ∧ r ≠ none
  | _, r => r = some none

namespace Phase

/-- The object has the descriptor. -/
def Live : Phase → Prop
  | .closed => False
  | .held _ st => ¬ st.Fresh
  | _ => True

def Registers : Phase → Option (Option Interest) → Prop
  | .closed, r => r = none
  | .armed, r => ∃ ev, r = some (some ev)
  | .held τ st, r => st.Registers τ r
  | _, r => r = some none

end Phase

/-- A thread is between `close` and `m_sockfd = -1`. -/
def Server.Resets (s : Server) (fd : Int) : Prop :=
  ∃ τ, s.threads τ = some (fd, .closing .reset)

/-- The number `fd` is in the phase `p`. With `tight`, no connection is lost, and a thread
    that works on the object of an open descriptor holds it. -/
structure At (tight : Prop) (s : Server) (fd : Int) (p : Phase) : Prop where
  opened : fd ∈ s.opened ↔ p ≠ .closed
  reported : (s.events.map Event.sockfd).count (some fd) = if p = .reported then 1 else 0
  queued : s.workqueue.count fd = if p = .queued then 1 else 0
  held : ∀ τ st, s.threads τ = some (fd, st) ∧ st.Holds ↔ p = .held τ st
  registers : p.Registers (s.epoll fd)
  captured : ∀ τ sockfd, p = .held τ (.closing (.close sockfd)) → sockfd = fd
  live : p.Live → (s.users fd).sockfd = fd ∧ s.inited fd = true
  dead : ¬ p.Live → s.inited fd = true →
    (s.users fd).sockfd = -1 ∨ (s.users fd).sockfd = fd ∧ s.Resets fd
  resets : s.Resets fd → ¬ p.Live
  late : ∀ τ st, s.threads τ = some (fd, st) → ¬ st.Holds → s.inited fd = true
  nonneg : p ≠ .closed → 0 ≤ fd
  tally : s.closed fd + (if p = .closed then 0 else 1) = s.accepted fd
  kept : tight → p ≠ .lost
  alone : tight → p ≠ .closed → ∀ τ st, s.threads τ = some (fd, st) → st.Holds

def Inv (tight : Prop) (s : Server) : Prop :=
  ∀ fd, ∃ p, At tight s fd p

variable {tight : Prop} {s t : Server} {p p' : Phase} {fd x : Int} {τ : Thread}
  {st st' : Stage} {o : Option (Int × Stage)}

/-- Only the main loop holds a descriptor that is armed. -/
theorem Stage.Registers.main {ev : Interest} (h : st.Registers τ (some (some ev))) : τ = .main := by
  cases st with
  | init i => cases i <;> simp_all [Registers]
  | closing c => cases c <;> simp_all [Registers]
  | _ => cases h

theorem Phase.Registers.armed {ev : Interest} (h : p.Registers (some (some ev))) :
    p = .armed ∨ ∃ st, p = .held .main st := by
  cases p with
  | armed => exact .inl rfl
  | held τ st =>
    obtain rfl := Stage.Registers.main h
    exact .inr ⟨st, rfl⟩
  | _ => cases h

/-- An armed descriptor may be armed again. -/
theorem Phase.Registers.rearm {ev : Interest} (h : p.Registers (some (some ev))) (ev' : Interest) :
    p.Registers (some (some ev')) := by
  cases p with
  | armed => exact ⟨_, rfl⟩
  | held τ st =>
    cases st with
    | init i => cases i <;> simp_all [Registers, Stage.Registers]
    | closing c => cases c <;> simp_all [Registers, Stage.Registers]
    | _ => cases h
  | _ => cases h

theorem Phase.Live.ne_closed (h : p.Live) : p ≠ .closed := by
  rintro rfl
  exact h

-- ---------------------------------------------------------------------------
-- Other numbers
-- ---------------------------------------------------------------------------

/-- All that concerns a number is as it was. -/
structure Same (s t : Server) (fd : Int) : Prop where
  users : t.users fd = s.users fd
  epoll : t.epoll fd = s.epoll fd
  opened : fd ∈ t.opened ↔ fd ∈ s.opened
  reported : (t.events.map Event.sockfd).count (some fd) =
    (s.events.map Event.sockfd).count (some fd)
  queued : t.workqueue.count fd = s.workqueue.count fd
  threads : ∀ τ st, t.threads τ = some (fd, st) ↔ s.threads τ = some (fd, st)
  inited : t.inited fd = s.inited fd
  accepted : t.accepted fd = s.accepted fd
  closed : t.closed fd = s.closed fd

theorem At.congr (h : At tight s fd p) (hsame : Same s t fd) : At tight t fd p where
  opened := by rw [hsame.opened, h.opened]
  reported := by rw [hsame.reported, h.reported]
  queued := by rw [hsame.queued, h.queued]
  held := by simpa only [hsame.threads] using h.held
  registers := by simpa only [hsame.epoll] using h.registers
  captured := h.captured
  live := by simpa only [hsame.users, hsame.inited] using h.live
  dead := by simpa only [hsame.users, hsame.inited, Server.Resets, hsame.threads] using h.dead
  resets := by simpa only [Server.Resets, hsame.threads] using h.resets
  late := by simpa only [hsame.threads, hsame.inited] using h.late
  nonneg := h.nonneg
  tally := by rw [hsame.closed, hsame.accepted, h.tally]
  kept := h.kept
  alone := by simpa only [hsame.threads] using h.alone

/-- A step that works on `fd` is right if `fd` is in a phase after it. -/
theorem Inv.of (h : Inv tight s) (hfd : At tight t fd p) (hsame : ∀ x, x ≠ fd → Same s t x) :
    Inv tight t := by
  intro x
  by_cases hx : x = fd
  · exact ⟨p, hx ▸ hfd⟩
  · obtain ⟨q, hq⟩ := h x
    exact ⟨q, hq.congr (hsame x hx)⟩

-- ---------------------------------------------------------------------------
-- Threads
-- ---------------------------------------------------------------------------

/-- A thread works on no other object. -/
def OnlyAt (fd : Int) (st : Option (Int × Stage)) : Prop :=
  ∀ x m, st = some (x, m) → x = fd

theorem onlyAt_none : OnlyAt fd none := nofun

theorem onlyAt_some : OnlyAt fd (some (fd, st)) := by
  rintro _ _ ⟨⟩
  rfl

theorem update_same (hold : OnlyAt fd (s.threads τ)) (hnew : OnlyAt fd o) (hx : x ≠ fd)
    (τ' : Thread) (st : Stage) :
    Function.update s.threads τ o τ' = some (x, st) ↔ s.threads τ' = some (x, st) := by
  by_cases hτ : τ' = τ
  · subst hτ
    rw [Function.update_self]
    exact ⟨fun h => absurd (hnew _ _ h) hx, fun h => absurd (hold _ _ h) hx⟩
  · rw [Function.update_of_ne hτ]

namespace Same

theorem refl (s : Server) (x : Int) : Same s s x :=
  ⟨rfl, rfl, .rfl, rfl, rfl, fun _ _ => .rfl, rfl, rfl, rfl⟩

theorem trans {u : Server} (h : Same s t x) (h' : Same t u x) : Same s u x where
  users := h'.users.trans h.users
  epoll := h'.epoll.trans h.epoll
  opened := h'.opened.trans h.opened
  reported := h'.reported.trans h.reported
  queued := h'.queued.trans h.queued
  threads τ st := (h'.threads τ st).trans (h.threads τ st)
  inited := h'.inited.trans h.inited
  accepted := h'.accepted.trans h.accepted
  closed := h'.closed.trans h.closed

theorem setThread (hold : OnlyAt fd (s.threads τ)) (hnew : OnlyAt fd o) (hx : x ≠ fd) :
    Same s (s.setThread τ o) x :=
  { refl s x with threads := update_same hold hnew hx }

theorem setUser (hx : x ≠ fd) (c : HttpConn) : Same s (s.setUser fd c) x :=
  { refl s x with users := Function.update_of_ne hx .. }

theorem addfd (hx : x ≠ fd) : Same s (s.addfd fd) x := by
  refine { refl s x with epoll := ?_ }
  simp only [Server.addfd]
  split
  · exact Function.update_of_ne hx ..
  · rfl

theorem modfd (hx : x ≠ fd) (ev : Interest) : Same s (s.modfd fd ev) x := by
  refine { refl s x with epoll := ?_ }
  simp only [Server.modfd]
  split
  · rfl
  · exact Function.update_of_ne hx ..

theorem epollDel (hx : x ≠ fd) : Same s (s.epollDel fd) x :=
  { refl s x with epoll := Function.update_of_ne hx .. }

theorem close (hx : x ≠ fd) : Same s (s.close fd) x :=
  { refl s x with
    opened := by simp [Server.close, hx]
    epoll := Function.update_of_ne hx ..
    closed := Function.update_of_ne hx .. }

theorem accept (hx : x ≠ fd) : Same s (s.accept fd) x :=
  { refl s x with
    opened := by simp [Server.accept, hx]
    accepted := Function.update_of_ne hx .. }

end Same

theorem update_iff (hthreads : t.threads = Function.update s.threads τ o) (τ' : Thread) :
    t.threads τ' = some (fd, st) ↔
      τ' = τ ∧ o = some (fd, st) ∨ τ' ≠ τ ∧ s.threads τ' = some (fd, st) := by
  rw [hthreads]
  by_cases hτ : τ' = τ <;> simp [hτ]

/-- The holder of a number is the thread that a step is about, before and after. -/
theorem held_update (h : ∀ τ st, s.threads τ = some (fd, st) ∧ st.Holds ↔ p = .held τ st)
    (hthreads : t.threads = Function.update s.threads τ o)
    (hown : ∀ τ' st, p = .held τ' st → τ' = τ)
    (hheld : ∀ τ' st, τ' = τ ∧ o = some (fd, st) ∧ st.Holds ↔ p' = .held τ' st) (τ' : Thread)
    (st : Stage) : t.threads τ' = some (fd, st) ∧ st.Holds ↔ p' = .held τ' st := by
  rw [update_iff hthreads, ← hheld]
  constructor
  · rintro ⟨⟨hτ, hst⟩ | ⟨hτ, hst⟩, hholds⟩
    · exact ⟨hτ, hst, hholds⟩
    · exact absurd (hown _ _ ((h _ _).mp ⟨hst, hholds⟩)) hτ
  · rintro ⟨hτ, hst, hholds⟩
    exact ⟨.inl ⟨hτ, hst⟩, hholds⟩

theorem At.of_threads (h : At tight s fd p) (hst : s.threads τ = some (fd, st)) (hholds : st.Holds) :
    p = .held τ st :=
  (h.held τ st).mp ⟨hst, hholds⟩

theorem Inv.holder (h : Inv tight s) (hst : s.threads τ = some (fd, st)) (hholds : st.Holds) :
    At tight s fd (.held τ st) := by
  obtain ⟨p, hp⟩ := h fd
  exact hp.of_threads hst hholds ▸ hp

theorem At.idle (h : At tight s fd p) (hst : s.threads τ = none) (st : Stage) : p ≠ .held τ st := by
  rintro rfl
  have := ((h.held τ st).mpr rfl).1
  rw [hst] at this
  cases this

theorem At.threads (h : At tight s fd (.held τ st)) : s.threads τ = some (fd, st) :=
  ((h.held τ st).mpr rfl).1

-- ---------------------------------------------------------------------------
-- Live connections
-- ---------------------------------------------------------------------------

/-- What a step leaves as it is at a live connection. -/
structure Keeps (s t : Server) (fd : Int) : Prop where
  opened : t.opened = s.opened
  sockfd : (t.users fd).sockfd = (s.users fd).sockfd
  inited : t.inited = s.inited
  accepted : t.accepted = s.accepted
  closed : t.closed = s.closed

/-- A thread gets, keeps or hands on a live connection. -/
theorem At.move (h : At tight s fd p) (hlive : p.Live) (hkeeps : Keeps s t fd)
    (hthreads : t.threads = Function.update s.threads τ o)
    (hown : ∀ τ' st, p = .held τ' st → τ' = τ) (hnew : ∀ st, o = some (fd, st) → st.Holds)
    (hheld : ∀ τ' st, τ' = τ ∧ o = some (fd, st) ↔ p' = .held τ' st) (hlive' : p'.Live)
    (hreported : (t.events.map Event.sockfd).count (some fd) = if p' = .reported then 1 else 0)
    (hqueued : t.workqueue.count fd = if p' = .queued then 1 else 0)
    (hregisters : p'.Registers (t.epoll fd))
    (hcaptured : ∀ τ sockfd, p' = .held τ (.closing (.close sockfd)) → sockfd = fd)
    (hkept : tight → p' ≠ .lost) : At tight t fd p' := by
  have hreset : ¬ t.Resets fd := by
    rintro ⟨τ', hτ'⟩
    rcases (update_iff hthreads _).mp hτ' with ⟨-, hst⟩ | ⟨-, hst⟩
    · exact hnew _ hst
    · exact h.resets ⟨τ', hst⟩ hlive
  refine ⟨?_, hreported, hqueued, held_update h.held hthreads hown ?_, hregisters, hcaptured,
    fun _ => ?_, fun hdead => absurd hlive' hdead, fun hr => absurd hr hreset, ?_,
    fun _ => h.nonneg hlive.ne_closed, ?_, hkept, ?_⟩
  · rw [hkeeps.opened, h.opened]
    exact ⟨fun _ => hlive'.ne_closed, fun _ => hlive.ne_closed⟩
  · intro τ' st
    rw [← hheld]
    exact ⟨fun h => ⟨h.1, h.2.1⟩, fun h => ⟨h.1, h.2, hnew _ h.2⟩⟩
  · rw [hkeeps.sockfd, hkeeps.inited]
    exact h.live hlive
  · intro _ _ _ _
    rw [hkeeps.inited]
    exact (h.live hlive).2
  · rw [hkeeps.closed, hkeeps.accepted, ← h.tally, if_neg hlive.ne_closed, if_neg hlive'.ne_closed]
  · intro htight _ τ' st hst
    rcases (update_iff hthreads _).mp hst with ⟨-, hst⟩ | ⟨-, hst⟩
    · exact hnew _ hst
    · exact h.alone htight hlive.ne_closed _ _ hst

/-- A thread goes on with the connection it holds. -/
theorem At.advance (h : At tight s fd (.held τ st)) (st' : Stage) (hlive : ¬ st.Fresh) (hkeeps : Keeps s t fd)
    (hthreads : t.threads = Function.update s.threads τ (some (fd, st'))) (hholds : st'.Holds)
    (hlive' : ¬ st'.Fresh) (hevents : t.events = s.events) (hqueue : t.workqueue = s.workqueue)
    (hregisters : st'.Registers τ (t.epoll fd))
    (hcaptured : ∀ sockfd, st' = .closing (.close sockfd) → sockfd = fd) :
    At tight t fd (.held τ st') := by
  refine h.move hlive hkeeps hthreads ?_ ?_ ?_ hlive' ?_ ?_ hregisters ?_ nofun
  · rintro _ _ ⟨⟩
    rfl
  · rintro _ ⟨⟩
    exact hholds
  · intro τ' m
    simp [eq_comm]
  · rw [hevents, h.reported]
    rfl
  · rw [hqueue, h.queued]
    rfl
  · rintro _ _ ⟨⟩
    exact hcaptured _ rfl

/-- A thread takes a connection from where it waits. -/
theorem At.acquire (h : At tight s fd p) (st : Stage) (hwaits : p = .reported ∨ p = .queued)
    (hkeeps : Keeps s t fd) (hthreads : t.threads = Function.update s.threads τ (some (fd, st)))
    (hholds : st.Holds) (hlive' : ¬ st.Fresh)
    (hreported : (t.events.map Event.sockfd).count (some fd) = 0) (hqueued : t.workqueue.count fd = 0)
    (hregisters : st.Registers τ (t.epoll fd))
    (hcaptured : ∀ sockfd, st = .closing (.close sockfd) → sockfd = fd) :
    At tight t fd (.held τ st) := by
  have hlive : p.Live := by
    rcases hwaits with rfl | rfl <;> trivial
  refine h.move hlive hkeeps hthreads ?_ ?_ ?_ hlive' hreported hqueued hregisters ?_ nofun
  · rcases hwaits with rfl | rfl <;> nofun
  · rintro _ ⟨⟩
    exact hholds
  · intro τ' m
    simp [eq_comm]
  · rintro _ _ ⟨⟩
    exact hcaptured _ rfl

/-- A thread hands a connection on, or loses it. -/
theorem At.release (h : At tight s fd (.held τ st)) (hlive : ¬ st.Fresh) (hkeeps : Keeps s t fd)
    (hthreads : t.threads = Function.update s.threads τ none)
    (hplace : p' = .armed ∨ p' = .queued ∨ p' = .lost)
    (hevents : t.events = s.events) (hqueued : t.workqueue.count fd = if p' = .queued then 1 else 0)
    (hregisters : p'.Registers (t.epoll fd)) (hkept : tight → p' ≠ .lost) : At tight t fd p' := by
  have hheld : ∀ τ' st, p' ≠ .held τ' st := by
    rcases hplace with rfl | rfl | rfl <;> exact nofun
  refine h.move hlive hkeeps hthreads ?_ nofun ?_ ?_ ?_ hqueued hregisters ?_ hkept
  · rintro _ _ ⟨⟩
    rfl
  · intro τ' m
    simp [hheld]
  · rcases hplace with rfl | rfl | rfl <;> trivial
  · rw [hevents, h.reported]
    rcases hplace with rfl | rfl | rfl <;> rfl
  · exact fun _ _ heq => absurd heq (hheld _ _)

-- ---------------------------------------------------------------------------
-- Closed and fresh descriptors
-- ---------------------------------------------------------------------------

theorem resets_update (hthreads : t.threads = Function.update s.threads τ o)
    (hold : s.threads τ ≠ some (fd, .closing .reset)) (h : s.Resets fd) : t.Resets fd := by
  obtain ⟨τ', hτ'⟩ := h
  refine ⟨τ', (update_iff hthreads _).mpr (.inr ⟨?_, hτ'⟩)⟩
  rintro rfl
  exact hold hτ'

/-- A step at a descriptor that is not its object's, which remains so. -/
theorem At.remain (h : At tight s fd p) (hdead : ¬ p.Live) (hdead' : ¬ p'.Live)
    (hthreads : t.threads = Function.update s.threads τ o)
    (hold : s.threads τ ≠ some (fd, .closing .reset))
    (hown : ∀ τ' st, p = .held τ' st → τ' = τ) (hnew : ∀ st, o = some (fd, st) → st.Holds)
    (hheld : ∀ τ' st, τ' = τ ∧ o = some (fd, st) ↔ p' = .held τ' st)
    (husers : t.users = s.users) (hinited : t.inited = s.inited)
    (hopened : fd ∈ t.opened ↔ p' ≠ .closed)
    (hreported : (t.events.map Event.sockfd).count (some fd) = 0) (hqueued : t.workqueue.count fd = 0)
    (hregisters : p'.Registers (t.epoll fd)) (hnonneg : 0 ≤ fd)
    (htally : t.closed fd + (if p' = .closed then 0 else 1) = t.accepted fd)
    (halone : tight → p' ≠ .closed → ∀ τ st, s.threads τ = some (fd, st) → st.Holds) :
    At tight t fd p' := by
  have hplace : p' ≠ .reported ∧ p' ≠ .queued ∧ p' ≠ .lost ∧
      ∀ τ sockfd, p' ≠ .held τ (.closing (.close sockfd)) := by
    refine ⟨?_, ?_, ?_, fun _ _ => ?_⟩ <;> rintro rfl <;> exact hdead' (by simp [Phase.Live, Stage.Fresh])
  obtain ⟨hne₁, hne₂, hne₃, hne₄⟩ := hplace
  refine ⟨hopened, by rw [hreported, if_neg hne₁], by rw [hqueued, if_neg hne₂],
    held_update h.held hthreads hown ?_, hregisters, fun _ _ heq => absurd heq (hne₄ _ _),
    fun hlive => absurd hlive hdead', fun _ hin => ?_, fun _ => hdead', ?_, fun _ => hnonneg, htally,
    fun _ => hne₃, fun htight hne τ' st hst => ?_⟩
  · intro τ' st
    rw [← hheld]
    exact ⟨fun h => ⟨h.1, h.2.1⟩, fun h => ⟨h.1, h.2, hnew _ h.2⟩⟩
  · rw [husers]
    exact (h.dead hdead (hinited ▸ hin)).imp_right fun hr => ⟨hr.1, resets_update hthreads hold hr.2⟩
  · rw [hinited]
    intro τ' st hst hlate
    rcases (update_iff hthreads _).mp hst with ⟨-, hst⟩ | ⟨-, hst⟩
    · exact absurd (hnew _ hst) hlate
    · exact h.late _ _ hst hlate
  · rcases (update_iff hthreads _).mp hst with ⟨-, hst⟩ | ⟨-, hst⟩
    · exact hnew _ hst
    · exact halone htight hne _ _ hst

/-- `init` gives the number to the object, in which no thread is about to reset it. -/
theorem At.initSock (h : At tight s fd (.held .main (.init .sock))) (hresets : ¬ s.Resets fd)
    (hthreads : t.threads = Function.update s.threads .main (some (fd, .init .add)))
    (hopened : t.opened = s.opened) (hevents : t.events = s.events)
    (hqueue : t.workqueue = s.workqueue) (hepoll : t.epoll = s.epoll)
    (hsock : (t.users fd).sockfd = fd) (hinited : t.inited fd = true)
    (hclosed : t.closed = s.closed) (haccepted : t.accepted = s.accepted) :
    At tight t fd (.held .main (.init .add)) := by
  have hreset : ¬ t.Resets fd := by
    rintro ⟨τ', hτ'⟩
    rcases (update_iff hthreads _).mp hτ' with ⟨-, ⟨⟩⟩ | ⟨-, hst⟩
    exact hresets ⟨τ', hst⟩
  refine ⟨by simpa [hopened] using h.opened, by simpa [hevents] using h.reported,
    by simpa [hqueue] using h.queued, held_update h.held hthreads (by rintro _ _ ⟨⟩; rfl) ?_, ?_,
    nofun, fun _ => ⟨hsock, hinited⟩, fun hdead => absurd id hdead, fun hr => absurd hr hreset,
    fun _ _ _ _ => hinited, fun _ => h.nonneg nofun, by simpa [hclosed, haccepted] using h.tally,
    nofun, ?_⟩
  · intro τ' st'
    simp only [Option.some.injEq, Prod.mk.injEq, Phase.held.injEq, true_and]
    constructor
    · rintro ⟨rfl, rfl, -⟩
      exact ⟨rfl, rfl⟩
    · rintro ⟨rfl, rfl⟩
      exact ⟨rfl, rfl, trivial⟩
  · rw [hepoll]
    exact h.registers
  · intro htight _ τ' st' hst
    rcases (update_iff hthreads _).mp hst with ⟨-, ⟨⟩⟩ | ⟨-, hst⟩
    · trivial
    · exact h.alone htight nofun _ _ hst

/-- The holder of a live connection closes the descriptor, and goes on in `close_conn`. -/
theorem At.close (h : At tight s fd (.held τ st)) (hlive : ¬ st.Fresh) :
    At tight ((s.close fd).setThread τ (some (fd, .closing .reset))) fd .closed := by
  have hresets : ((s.close fd).setThread τ (some (fd, .closing .reset))).Resets fd :=
    ⟨τ, Server.setThread_self ..⟩
  obtain ⟨hsock, hin⟩ := h.live hlive
  refine ⟨by simp [Server.close, Server.setThread],
    by simpa [Server.close, Server.setThread] using h.reported,
    by simpa [Server.close, Server.setThread] using h.queued,
    held_update h.held rfl (by rintro _ _ ⟨⟩; rfl) ?_, Function.update_self .., nofun, nofun,
    fun _ _ => .inr ⟨hsock, hresets⟩, fun _ => id, fun _ _ _ _ => hin,
    fun hne => absurd rfl hne, ?_, nofun, fun _ hne => absurd rfl hne⟩
  · intro τ' m
    simp only [reduceCtorEq, iff_false]
    rintro ⟨-, ⟨⟩, hholds⟩
    exact hholds
  · have htally := h.tally
    simp only [reduceCtorEq, if_false] at htally
    simpa [Server.close, Server.setThread] using htally

-- ---------------------------------------------------------------------------
-- The end of close_conn
-- ---------------------------------------------------------------------------

/-- A thread that does not hold the number goes on, and does not begin to. -/
theorem At.drop (h : At tight s fd p) (hst : s.threads τ = some (fd, st)) (hlate : ¬ st.Holds)
    (hthreads : t.threads = Function.update s.threads τ o)
    (hnew : ∀ m, o = some (fd, m) → ¬ m.Holds ∧ m ≠ .closing .reset)
    (hopened : t.opened = s.opened) (hevents : t.events = s.events)
    (hqueue : t.workqueue = s.workqueue) (hinited : t.inited = s.inited)
    (hclosed : t.closed = s.closed) (haccepted : t.accepted = s.accepted)
    (hregisters : p.Registers (t.epoll fd)) (hlive : p.Live → t.users fd = s.users fd)
    (hdead : ¬ p.Live → s.inited fd = true →
      (t.users fd).sockfd = -1 ∨ (t.users fd).sockfd = fd ∧ t.Resets fd) : At tight t fd p := by
  have hnot : ∀ m, p ≠ .held τ m := by
    rintro m rfl
    have := h.threads
    rw [hst] at this
    cases this
    exact hlate ((h.held _ _).mpr rfl).2
  have hin := h.late _ _ hst hlate
  refine ⟨by rw [hopened, h.opened], by rw [hevents, h.reported], by rw [hqueue, h.queued],
    fun τ' m => ?_, hregisters, h.captured, ?_, ?_, ?_, fun _ _ _ _ => hinited ▸ hin, h.nonneg,
    by rw [hclosed, haccepted, h.tally], h.kept, ?_⟩
  · rw [update_iff hthreads, ← h.held]
    constructor
    · rintro ⟨⟨-, hm⟩ | ⟨-, hm⟩, hholds⟩
      · exact absurd hholds (hnew _ hm).1
      · exact ⟨hm, hholds⟩
    · rintro ⟨hm, hholds⟩
      refine ⟨.inr ⟨?_, hm⟩, hholds⟩
      rintro rfl
      exact hnot _ ((h.held _ _).mp ⟨hm, hholds⟩)
  · intro hl
    rw [hlive hl, hinited]
    exact h.live hl
  · rw [hinited]
    exact hdead
  · rintro ⟨τ', hτ'⟩
    rcases (update_iff hthreads _).mp hτ' with ⟨-, hm⟩ | ⟨-, hm⟩
    · exact absurd rfl (hnew _ hm).2
    · exact h.resets ⟨τ', hm⟩
  · intro htight hne
    exact absurd (h.alone htight hne _ _ hst) hlate

end WebServer
