-- SUMMARY: The check of m_user_count counts users, and the array is indexed by descriptor: exactly which runs stay inside the array.
import LinuxLearning.WebServer.Arrivals
import LinuxLearning.WebServer.Ownership
import Mathlib.Order.Interval.Finset.Basic
import Mathlib.Order.ConditionallyCompleteLattice.Basic
import Mathlib.Data.Int.ConditionallyCompleteOrder
import Mathlib.Data.Int.Interval

/-!
# The capacity of users

`main` turns a connection away when `m_user_count` has reached `MAX_FD`, and otherwise
indexes `users` by the new descriptor. The descriptors of the process are more than those
of its clients.
-/

namespace WebServer

open Http Transition

variable {n m : Nat} {a : Action} {fd connfd : Int} {τ : Thread} {o : Option (Int × Stage)}

/-- The standard streams, `listenfd` and `epollfd`, which are opened first. -/
def others : Finset Int := {0, 1, 2, 3, 4}

/-- A descriptor below `MAX_FD`, which is the number of an object of `users`. -/
def IsIndex (fd : Int) : Prop :=
  0 ≤ fd ∧ fd < maxFd

instance (fd : Int) : Decidable (IsIndex fd) :=
  inferInstanceAs (Decidable (0 ≤ fd ∧ fd < maxFd))

/-- The files that workers have open in `do_request`, at most one each. -/
structure Files (s : Server) (files : Finset Int) : Prop where
  nonneg : ∀ fd ∈ files, 0 ≤ fd
  distinct : Disjoint (s.opened ∪ others) files
  workers : ∃ w : Int → Nat, Set.InjOn w files ∧
    ∀ fd ∈ files, ∃ user, s.threads (.worker (w fd)) = some (user, .processRead)

/-- The lowest descriptor that is not in use. -/
structure Lowest (used : Finset Int) (connfd : Int) : Prop where
  nonneg : 0 ≤ connfd
  unused : connfd ∉ used
  least : ∀ fd, 0 ≤ fd → fd < connfd → fd ∈ used

/-- Few enough clients are open beside the other descriptors, and the files below `MAX_FD`. -/
def Room (opened files : Finset Int) : Prop :=
  opened.card + others.card + (files.filter IsIndex).card < maxFd

instance (opened files : Finset Int) : Decidable (Room opened files) :=
  Int.decLt (opened.card + others.card + (files.filter IsIndex).card) maxFd

/-- The server, and whether there was room when `accept` last returned. -/
structure Watched where
  server : Server
  room : Bool

def Watched.start (users : Int → HttpConn) : Watched :=
  ⟨.start users, true⟩

/-- What `accept` returns, and whether there is room. -/
structure Accepts (s : Watched) (connfd : Int) (t : Watched) (files : Finset Int) : Prop where
  lowest : Lowest (s.server.opened ∪ others ∪ files) connfd
  room : t.room = decide (Room s.server.opened files)
  files : Files s.server files

/-- A step of the server, in which `accept` returns the lowest descriptor that is not in use. -/
structure WStep (n m : Nat) (s : Watched) (a : Action) (t : Watched) : Prop where
  step : Step n m s.server a t.server
  lowest : ∀ connfd, a = .accept connfd → ∃ files, Accepts s connfd t files
  keeps : (∀ connfd, a ≠ .accept connfd) → t.room = s.room

/-- The statement works on an object of `users`. -/
def Stage.OnUser (st : Stage) : Prop :=
  st ≠ .accepted ∧ st ≠ .refuse

/-- Every object that a thread works on is one of the array. -/
def IndexesInRange (s : Server) : Prop :=
  ∀ τ fd st, s.threads τ = some (fd, st) → st.OnUser → IsIndex fd

/-- The check of `m_user_count` lets a connection pass that was accepted without room. -/
def Watched.LetsIn (s : Watched) : Action → Prop
  | .main => ∃ fd, s.server.threads .main = some (fd, .accepted) ∧ s.server.userCount < maxFd ∧ s.room = false
  | _ => False

-- ---------------------------------------------------------------------------
-- The lowest descriptor
-- ---------------------------------------------------------------------------

theorem others_isIndex : ∀ fd ∈ others, IsIndex fd := by
  intro fd h
  simp only [others, Finset.mem_insert, Finset.mem_singleton] at h
  unfold IsIndex maxFd
  omega

/-- With every client below `MAX_FD`, the lowest free descriptor is below it exactly if there
    is room. -/
theorem Accepts.lt_iff {s t : Watched} {files : Finset Int} (h : Accepts s connfd t files)
    (hopened : ∀ fd ∈ s.server.opened, fd ∉ others ∧ IsIndex fd) : connfd < maxFd ↔ Room s.server.opened files := by
  obtain ⟨hlow, -, hnonneg, hdistinct, -⟩ := h
  have hothers : Disjoint s.server.opened others := Finset.disjoint_left.mpr fun fd hfd => (hopened fd hfd).1
  have hfiles : Disjoint (s.server.opened ∪ others) (files.filter IsIndex) :=
    Finset.disjoint_of_subset_right (Finset.filter_subset _ _) hdistinct
  have hcard : (Finset.Ico 0 maxFd).card = 65536 := by
    rw [Int.card_Ico]
    rfl
  -- what is in use below `MAX_FD`
  have hsub : s.server.opened ∪ others ∪ files.filter IsIndex ⊆ Finset.Ico 0 maxFd := fun fd hfd => by
    rw [Finset.mem_Ico]
    rcases Finset.mem_union.mp hfd with hfd | hfd
    · rcases Finset.mem_union.mp hfd with hfd | hfd
      · exact (hopened fd hfd).2
      · exact others_isIndex fd hfd
    · exact (Finset.mem_filter.mp hfd).2
  unfold Room
  rw [← Nat.cast_add, ← Finset.card_union_of_disjoint hothers, ← Nat.cast_add, ← Finset.card_union_of_disjoint hfiles]
  constructor
  · intro hlt
    -- one descriptor of the array is free
    have hunused : connfd ∉ s.server.opened ∪ others ∪ files.filter IsIndex := fun hmem =>
      hlow.unused (Finset.union_subset_union_right (Finset.filter_subset _ _) hmem)
    have hss := (Finset.ssubset_iff_of_subset hsub).mpr ⟨connfd, Finset.mem_Ico.mpr ⟨hlow.nonneg, hlt⟩, hunused⟩
    have := Finset.card_lt_card hss
    rw [hcard] at this
    unfold maxFd
    omega
  · intro hroom
    by_contra hge
    have hall : Finset.Ico 0 maxFd ⊆ s.server.opened ∪ others ∪ files.filter IsIndex := fun fd hfd => by
      rw [Finset.mem_Ico] at hfd
      rcases Finset.mem_union.mp (hlow.least fd hfd.1 (by omega)) with hmem | hmem
      · exact Finset.mem_union_left _ hmem
      · exact Finset.mem_union_right _ (Finset.mem_filter.mpr ⟨hmem, hfd⟩)
    have := Finset.card_le_card hall
    rw [hcard] at this
    unfold maxFd at hroom
    omega

-- ---------------------------------------------------------------------------
-- What is in range
-- ---------------------------------------------------------------------------

/-- `main` has accepted the descriptor and not made it a user. -/
def Server.Waiting (s : Server) (fd : Int) : Prop :=
  ∃ st, s.threads .main = some (fd, st) ∧ ¬ st.OnUser

structure Ranged (s : Watched) : Prop where
  opened : ∀ fd ∈ s.server.opened, fd ∉ others ∧ 0 ≤ fd ∧ (fd < maxFd ∨ s.server.Waiting fd)
  accepted : ∀ fd, s.server.threads .main = some (fd, .accepted) → 0 ≤ fd ∧ (s.room = true ↔ fd < maxFd)
  threads : IndexesInRange s.server
  queue : ∀ fd ∈ s.server.workqueue, IsIndex fd
  events : ∀ fd kind, .client fd kind ∈ s.server.events → IsIndex fd
  epoll : ∀ fd, s.server.epoll fd ≠ none → IsIndex fd

variable {s t : Watched}

/-- Between two events, everything open is in range. -/
theorem Ranged.opened_idle (hs : Ranged s) (hmain : s.server.threads .main = none) :
    ∀ fd ∈ s.server.opened, fd ∉ others ∧ IsIndex fd := by
  intro fd hfd
  obtain ⟨hother, hpos, hlt | ⟨st, hst, -⟩⟩ := hs.opened fd hfd
  · exact ⟨hother, hpos, hlt⟩
  · rw [hmain] at hst
    cases hst

/-- A thread goes on with its object. -/
theorem Ranged.quiet {st : Stage} (hs : Ranged s) (hst : s.server.threads τ = some (fd, st)) (hon : st.OnUser)
    (hthreads : t.server.threads = Function.update s.server.threads τ o)
    (ho : ∀ fd' st', o = some (fd', st') → fd' = fd ∧ st'.OnUser) (hroom : t.room = s.room)
    (hopened : t.server.opened ⊆ s.server.opened) (hqueue : ∀ x ∈ t.server.workqueue, x ∈ s.server.workqueue ∨ x = fd)
    (hevents : t.server.events = s.server.events)
    (hepoll : ∀ x, t.server.epoll x ≠ none → s.server.epoll x ≠ none ∨ x = fd) : Ranged t := by
  have hfd := hs.threads τ fd st hst hon
  constructor
  · intro x hx
    obtain ⟨hother, hpos, hlt | ⟨st', hst', hoff⟩⟩ := hs.opened x (hopened hx)
    · exact ⟨hother, hpos, .inl hlt⟩
    · -- the waiting descriptor is `main`'s, and this thread is not waiting
      have hτ : .main ≠ τ := by
        rintro rfl
        rw [hst] at hst'
        cases hst'
        exact hoff hon
      exact ⟨hother, hpos, .inr ⟨st', (update_iff hthreads _).mpr (.inr ⟨hτ, hst'⟩), hoff⟩⟩
  · intro x hx
    rcases (update_iff hthreads _).mp hx with ⟨-, ho'⟩ | ⟨-, hx⟩
    · exact absurd rfl (ho x .accepted ho').2.1
    · rw [hroom]
      exact hs.accepted x hx
  · intro τ' x st' hx hon'
    rcases (update_iff hthreads _).mp hx with ⟨-, ho'⟩ | ⟨-, hx⟩
    · obtain ⟨rfl, -⟩ := ho x st' ho'
      exact hfd
    · exact hs.threads τ' x st' hx hon'
  · intro x hx
    rcases hqueue x hx with hx | rfl
    · exact hs.queue x hx
    · exact hfd
  · rw [hevents]
    exact hs.events
  · intro x hx
    rcases hepoll x hx with hx | rfl
    · exact hs.epoll x hx
    · exact hfd

/-- What a statement of `init(sockfd, addr)` does to the rest of the server. -/
theorem initStep_frame (s : Server) (fd : Int) (i : Opening) :
    (s.initStep fd i).1.opened = s.opened ∧ (s.initStep fd i).1.workqueue = s.workqueue ∧
      (s.initStep fd i).1.events = s.events ∧ (s.initStep fd i).1.threads = s.threads ∧
      ∀ x, (s.initStep fd i).1.epoll x ≠ none → s.epoll x ≠ none ∨ x = fd := by
  cases i with
  | sock | count | fields => exact ⟨rfl, rfl, rfl, rfl, fun _ => .inl⟩
  | add =>
    refine ⟨rfl, rfl, rfl, rfl, fun x hx => ?_⟩
    by_cases hfd : x = fd
    · exact .inr hfd
    · refine .inl ?_
      simp only [Server.initStep, Server.addfd] at hx
      split at hx
      · rwa [Function.update_of_ne hfd] at hx
      · exact hx

/-- And one of `close_conn`. -/
theorem closeStep_frame (s : Server) (fd : Int) (c : Closing) :
    (s.closeStep fd c).1.opened ⊆ s.opened ∧ (s.closeStep fd c).1.workqueue = s.workqueue ∧
      (s.closeStep fd c).1.events = s.events ∧ (s.closeStep fd c).1.threads = s.threads ∧
      ∀ x, (s.closeStep fd c).1.epoll x ≠ none → s.epoll x ≠ none := by
  have herase : ∀ sockfd x, Function.update s.epoll sockfd none x ≠ none → s.epoll x ≠ none := by
    intro sockfd x hx
    by_cases hfd : x = sockfd
    · rw [hfd, Function.update_self] at hx
      exact absurd rfl hx
    · rwa [Function.update_of_ne hfd] at hx
  cases c with
  | check | reset | count => exact ⟨Finset.Subset.refl _, rfl, rfl, rfl, fun _ => id⟩
  | epollDel => exact ⟨Finset.Subset.refl _, rfl, rfl, rfl, herase _⟩
  | close sockfd => exact ⟨Finset.erase_subset _ _, rfl, rfl, rfl, herase _⟩

theorem modfd_epoll (s : Server) (sockfd : Int) (ev : Interest) {x : Int} (hx : (s.modfd sockfd ev).epoll x ≠ none) :
    s.epoll x ≠ none := by
  simp only [Server.modfd] at hx
  split at hx
  · exact hx
  · by_cases hfd : x = sockfd
    · rwa [hfd]
    · rwa [Function.update_of_ne hfd] at hx

-- ---------------------------------------------------------------------------
-- Steps
-- ---------------------------------------------------------------------------

theorem Ranged.accept (hs : Ranged s) {events : List Event} {files : Finset Int} (hmain : s.server.threads .main = none)
    (hevents : s.server.events = .listen :: events) (haccepts : Accepts s connfd t files)
    (ht : t.server = { (s.server.accept connfd).setThread .main (some (connfd, .accepted)) with events := events }) :
    Ranged t := by
  have hlow := haccepts.lowest
  have hunused : connfd ∉ others := fun hmem =>
    hlow.unused (Finset.mem_union_left _ (Finset.mem_union_right _ hmem))
  have hthreads : t.server.threads = Function.update s.server.threads .main (some (connfd, .accepted)) := by
    rw [ht]
    rfl
  have hwaits : t.server.threads .main = some (connfd, .accepted) := by rw [hthreads, Function.update_self]
  constructor
  · intro fd hfd
    rw [ht] at hfd
    rcases Finset.mem_insert.mp hfd with rfl | hfd
    · exact ⟨hunused, hlow.nonneg, .inr ⟨.accepted, hwaits, fun h => h.1 rfl⟩⟩
    · obtain ⟨hnot, hpos, hlt⟩ := hs.opened_idle hmain fd hfd
      exact ⟨hnot, hpos, .inl hlt⟩
  · intro fd hfd
    rw [hwaits] at hfd
    cases hfd
    rw [haccepts.room, decide_eq_true_iff, haccepts.lt_iff (hs.opened_idle hmain)]
    exact ⟨hlow.nonneg, Iff.rfl⟩
  · intro τ fd st hst hon
    rcases (update_iff hthreads τ).mp hst with ⟨-, ho⟩ | ⟨-, hst⟩
    · cases ho
      exact absurd rfl hon.1
    · exact hs.threads τ fd st hst hon
  · rw [ht]
    exact hs.queue
  · rw [ht]
    exact fun fd kind hmem => hs.events fd kind (hevents ▸ List.mem_cons_of_mem _ hmem)
  · rw [ht]
    exact hs.epoll

/-- The check: a connection that was accepted with room, or that is turned away, does no harm. -/
theorem Ranged.checkCount (hs : Ranged s) (hst : s.server.threads .main = some (fd, .accepted))
    (hgood : ¬ s.LetsIn .main)
    (ht : t.server = s.server.setThread .main (some (fd, if maxFd ≤ s.server.userCount then .refuse else .init .sock))) :
    Ranged t := by
  obtain ⟨hpos, hlt⟩ := hs.accepted fd hst
  have hthreads : t.server.threads = Function.update s.server.threads .main
      (some (fd, if maxFd ≤ s.server.userCount then .refuse else .init .sock)) := by
    rw [ht]
    rfl
  have hnext : t.server.threads .main = some (fd, if maxFd ≤ s.server.userCount then .refuse else .init .sock) := by
    rw [hthreads, Function.update_self]
  -- a descriptor that passes is an index
  have hpass : ¬ maxFd ≤ s.server.userCount → fd < maxFd := fun hcount => by
    refine hlt.mp (Bool.eq_true_of_not_eq_false fun hfull => hgood ⟨fd, hst, by omega, hfull⟩)
  constructor
  · intro x hx
    rw [ht] at hx
    obtain ⟨hnot, hxpos, hx | ⟨st, hx, -⟩⟩ := hs.opened x hx
    · exact ⟨hnot, hxpos, .inl hx⟩
    · rw [hst] at hx
      cases hx
      refine ⟨hnot, hxpos, ?_⟩
      by_cases hcount : maxFd ≤ s.server.userCount
      · rw [if_pos hcount] at hnext
        exact .inr ⟨.refuse, hnext, fun h => h.2 rfl⟩
      · exact .inl (hpass hcount)
  · intro x hx
    rw [hnext] at hx
    split at hx <;> cases hx
  · intro τ x st hx hon
    rcases (update_iff hthreads τ).mp hx with ⟨-, ho⟩ | ⟨-, hx⟩
    · split at ho
      · cases ho
        exact absurd rfl hon.2
      · rename_i hcount
        cases ho
        exact ⟨hpos, hpass hcount⟩
    · exact hs.threads τ x st hx hon
  · rw [ht]
    exact hs.queue
  · rw [ht]
    exact hs.events
  · rw [ht]
    exact hs.epoll

theorem Ranged.refuse (hs : Ranged s) (hst : s.server.threads .main = some (fd, .refuse))
    (ht : t.server = (s.server.close fd).setThread .main none) : Ranged t := by
  have hthreads : t.server.threads = Function.update s.server.threads .main none := by
    rw [ht]
    rfl
  constructor
  · intro x hx
    rw [ht] at hx
    obtain ⟨hne, hx⟩ := Finset.mem_erase.mp hx
    obtain ⟨hnot, hxpos, hx | ⟨st, hx, -⟩⟩ := hs.opened x hx
    · exact ⟨hnot, hxpos, .inl hx⟩
    · rw [hst] at hx
      cases hx
      exact absurd rfl hne
  · intro x hx
    rw [hthreads, Function.update_self] at hx
    cases hx
  · intro τ x st hx hon
    rcases (update_iff hthreads τ).mp hx with ⟨-, ho⟩ | ⟨-, hx⟩
    · cases ho
    · exact hs.threads τ x st hx hon
  · rw [ht]
    exact hs.queue
  · rw [ht]
    exact hs.events
  · intro x hx
    rw [ht] at hx
    by_cases hfd : x = fd
    · rw [hfd] at hx
      exact absurd (Function.update_self ..) hx
    · exact hs.epoll x (by simpa [Server.setThread, Server.close, Function.update_of_ne hfd] using hx)

/-- An idle thread takes on an object. -/
theorem Ranged.begin {st : Stage} (hs : Ranged s) (hidle : s.server.threads τ = none) (hfd : IsIndex fd)
    (hon : st.OnUser) (hthreads : t.server.threads = Function.update s.server.threads τ (some (fd, st)))
    (hroom : t.room = s.room) (hopened : t.server.opened = s.server.opened)
    (hqueue : t.server.workqueue ⊆ s.server.workqueue) (hevents : t.server.events ⊆ s.server.events)
    (hepoll : t.server.epoll = s.server.epoll) : Ranged t := by
  constructor
  · rw [hopened]
    intro x hx
    obtain ⟨hnot, hxpos, hx | ⟨st', hx, hoff⟩⟩ := hs.opened x hx
    · exact ⟨hnot, hxpos, .inl hx⟩
    · have hτ : .main ≠ τ := by
        rintro rfl
        rw [hidle] at hx
        cases hx
      exact ⟨hnot, hxpos, .inr ⟨st', (update_iff hthreads _).mpr (.inr ⟨hτ, hx⟩), hoff⟩⟩
  · intro x hx
    rcases (update_iff hthreads _).mp hx with ⟨-, ho⟩ | ⟨-, hx⟩
    · cases ho
      exact absurd rfl hon.1
    · rw [hroom]
      exact hs.accepted x hx
  · intro τ' x st' hx hon'
    rcases (update_iff hthreads _).mp hx with ⟨-, ho⟩ | ⟨-, hx⟩
    · cases ho
      exact hfd
    · exact hs.threads τ' x st' hx hon'
  · exact fun x hx => hs.queue x (hqueue hx)
  · exact fun x kind hx => hs.events x kind (hevents hx)
  · rw [hepoll]
    exact hs.epoll

/-- `epoll_wait` reports registered descriptors. -/
theorem Ranged.wait (hs : Ranged s) {events : List Event} (hreports : Reports s.server.epoll events) (hroom : t.room = s.room)
    (ht : t.server = { s.server with events := events, epoll := disarm s.server.epoll events }) : Ranged t := by
  have hevents : ∀ fd kind, .client fd kind ∈ events → IsIndex fd := fun fd kind hmem => by
    obtain ⟨ev, hev, -⟩ := hreports.2.2 fd kind hmem
    exact hs.epoll fd (by rw [hev]; exact nofun)
  constructor
  · rw [ht]
    exact hs.opened
  · rw [ht, hroom]
    exact hs.accepted
  · rw [ht]
    exact hs.threads
  · rw [ht]
    exact hs.queue
  · rw [ht]
    exact hevents
  · intro fd hfd
    rw [ht] at hfd
    change (if some fd ∈ events.map Event.sockfd then _ else _) ≠ _ at hfd
    split at hfd
    · rename_i hmem
      obtain ⟨ev, hev, hsock⟩ := List.mem_map.mp hmem
      cases ev with
      | listen => cases hsock
      | client sockfd kind =>
        cases hsock
        exact hevents fd kind hev
    · exact hs.epoll fd hfd

theorem dispatch_onUser (kind : EventKind) : (dispatch kind).OnUser := by
  cases kind <;> exact ⟨nofun, nofun⟩

theorem afterClose_onUser {c : Option Closing} {fd' : Int} {st : Stage} (h : afterClose fd τ c = some (fd', st)) :
    fd' = fd ∧ st.OnUser := by
  cases c with
  | some c =>
    cases τ <;> cases h <;> exact ⟨rfl, nofun, nofun⟩
  | none =>
    cases τ with
    | main => cases h
    | worker w =>
      cases h
      exact ⟨rfl, nofun, nofun⟩

theorem Ranged.closing {c : Closing} (hs : Ranged s) (hst : s.server.threads τ = some (fd, .closing c))
    (hroom : t.room = s.room)
    (ht : t.server = (s.server.closeStep fd c).1.setThread τ (afterClose fd τ (s.server.closeStep fd c).2)) :
    Ranged t := by
  obtain ⟨hopened, hqueue, hevents, hthreads, hepoll⟩ := closeStep_frame s.server fd c
  have hset : t.server.threads =
      Function.update s.server.threads τ (afterClose fd τ (s.server.closeStep fd c).2) := by
    rw [ht, Server.setThread, hthreads]
  refine hs.quiet hst ⟨(by rintro ⟨⟩), (by rintro ⟨⟩)⟩ hset (fun _ _ => afterClose_onUser) hroom ?_ (fun x hx => .inl ?_) ?_
    fun x hx => .inl ?_
  · rw [ht]
    exact hopened
  · rw [ht] at hx
    exact hqueue ▸ hx
  · rw [ht]
    exact hevents
  · rw [ht] at hx
    exact hepoll x hx

theorem Ranged.init {i : Opening} (hs : Ranged s) (hst : s.server.threads .main = some (fd, .init i))
    (hroom : t.room = s.room)
    (ht : t.server =
      (s.server.initStep fd i).1.setThread .main ((s.server.initStep fd i).2.map fun i => (fd, .init i))) :
    Ranged t := by
  obtain ⟨hopened, hqueue, hevents, hthreads, hepoll⟩ := initStep_frame s.server fd i
  have hset : t.server.threads =
      Function.update s.server.threads .main ((s.server.initStep fd i).2.map fun i => (fd, .init i)) := by
    rw [ht, Server.setThread, hthreads]
  refine hs.quiet hst ⟨(by rintro ⟨⟩), (by rintro ⟨⟩)⟩ hset (fun fd' st' ho => ?_) hroom ?_ (fun x hx => .inl ?_) ?_ fun x hx => ?_
  · obtain ⟨i, -, ⟨⟩⟩ := Option.map_eq_some_iff.mp ho
    exact ⟨rfl, (by rintro ⟨⟩), (by rintro ⟨⟩)⟩
  · rw [ht]
    exact hopened.subset
  · rw [ht] at hx
    exact hqueue ▸ hx
  · rw [ht]
    exact hevents
  · rw [ht] at hx
    exact hepoll x hx

/-- A thread goes on to its next statement about the same object. -/
theorem Ranged.goesOn {st st' : Stage} (hs : Ranged s) (hst : s.server.threads τ = some (fd, st)) (hon : st.OnUser)
    (hon' : st'.OnUser) (hthreads : t.server.threads = Function.update s.server.threads τ (some (fd, st')))
    (hroom : t.room = s.room) (hopened : t.server.opened = s.server.opened)
    (hqueue : t.server.workqueue = s.server.workqueue) (hevents : t.server.events = s.server.events)
    (hepoll : t.server.epoll = s.server.epoll) : Ranged t := by
  refine hs.quiet hst hon hthreads ?_ hroom hopened.subset (fun x hx => .inl (hqueue ▸ hx)) hevents
    fun x hx => .inl (hepoll ▸ hx)
  rintro _ _ ⟨⟩
  exact ⟨rfl, hon'⟩

theorem Ranged.step (hs : Ranged s) (h : WStep n m s a t) (hgood : ¬ s.LetsIn a) : Ranged t := by
  obtain ⟨hstep, hlow, hkeeps⟩ := h
  obtain ⟨u, room⟩ := t
  cases hstep with
  | wait events _ _ hreports => exact hs.wait hreports (hkeeps nofun) rfl
  | acceptFail _ hevents =>
    have hroom := hkeeps nofun
    exact ⟨hs.opened, by rw [hroom]; exact hs.accepted, hs.threads, hs.queue,
      fun fd kind hmem => hs.events fd kind (hevents ▸ List.mem_cons_of_mem _ hmem), hs.epoll⟩
  | accept hmain hevents _ _ =>
    obtain ⟨files, haccepts⟩ := hlow _ rfl
    exact hs.accept hmain hevents haccepts rfl
  | checkCount hst => exact hs.checkCount hst hgood rfl
  | refuse hst => exact hs.refuse hst rfl
  | init hst => exact hs.init hst (hkeeps nofun) rfl
  | @next fd kind events hmain hevents =>
    refine hs.begin hmain (hs.events fd kind (by rw [hevents]; exact List.mem_cons_self)) (dispatch_onUser kind) rfl (hkeeps nofun)
      rfl (List.Subset.refl _) (by rw [hevents]; exact List.subset_cons_self _ _) rfl
  | read hst _ =>
    refine hs.goesOn hst ⟨nofun, nofun⟩ ?_ rfl (hkeeps nofun) rfl rfl rfl rfl
    split <;> exact ⟨nofun, nofun⟩
  | @append fd hst =>
    refine hs.quiet hst ⟨nofun, nofun⟩ rfl (by rintro _ _ ⟨⟩) (hkeeps nofun) (Finset.Subset.refl _) (fun x hx => ?_) rfl
      fun x => .inl
    change x ∈ (if m < s.server.workqueue.length then s.server.workqueue else s.server.workqueue ++ [fd]) at hx
    split at hx
    · exact .inl hx
    · exact (List.mem_append.mp hx).imp_right List.eq_of_mem_singleton
  | @write fd mem os r hst _ _ =>
    obtain ⟨conn, sent, armed, ret, rest⟩ := r
    have ho : ∀ x st, (if ret then none else some (fd, Stage.closing .check)) = some (x, st) → x = fd ∧ st.OnUser := by
      intro x st ho
      split at ho
      · cases ho
      · cases ho
        exact ⟨rfl, nofun, nofun⟩
    cases armed with
    | none =>
      exact hs.quiet hst ⟨nofun, nofun⟩ rfl ho (hkeeps nofun) (Finset.Subset.refl _) (fun x => .inl) rfl fun x => .inl
    | some ev =>
      exact hs.quiet hst ⟨nofun, nofun⟩ rfl ho (hkeeps nofun) (Finset.Subset.refl _) (fun x => .inl) rfl fun x hx =>
        .inl (modfd_epoll s.server _ ev hx)
  | mainClose hst => exact hs.closing hst (hkeeps nofun) rfl
  | @take w fd queue _ hidle hqueue =>
    have hfd : IsIndex fd := hs.queue fd (by rw [hqueue]; exact List.mem_cons_self)
    have hon : Stage.processRead.OnUser := ⟨nofun, nofun⟩
    exact hs.begin hidle hfd hon rfl (hkeeps nofun) rfl (by rw [hqueue]; exact List.subset_cons_self _ _)
      (List.Subset.refl _) rfl
  | processRead hst _ =>
    refine hs.goesOn hst ⟨nofun, nofun⟩ ?_ rfl (hkeeps nofun) rfl rfl rfl rfl
    split <;> exact ⟨nofun, nofun⟩
  | processWrite hst =>
    refine hs.goesOn hst ⟨nofun, nofun⟩ ?_ rfl (hkeeps nofun) rfl rfl rfl rfl
    split <;> exact ⟨nofun, nofun⟩
  | workerClose hst => exact hs.closing hst (hkeeps nofun) rfl
  | modfd hst =>
    exact hs.quiet hst ⟨nofun, nofun⟩ rfl (by rintro _ _ ⟨⟩) (hkeeps nofun) (Finset.Subset.refl _) (fun x => .inl) rfl
      fun x hx => .inl (modfd_epoll s.server _ _ hx)
  | modfdClosed hst =>
    exact hs.quiet hst ⟨nofun, nofun⟩ rfl (by rintro _ _ ⟨⟩) (hkeeps nofun) (Finset.Subset.refl _) (fun x => .inl) rfl
      fun x hx => .inl (modfd_epoll s.server _ _ hx)

theorem start_ranged (users : Int → HttpConn) : Ranged (.start users) where
  opened := nofun
  accepted := nofun
  threads := nofun
  queue := nofun
  events := nofun
  epoll := fun _ h => absurd rfl h

/-- A connection that passes the check without room is indexed out of range. -/
theorem Ranged.letsIn (hs : Ranged s) (h : WStep n m s a t) (hbad : s.LetsIn a) : ¬ IndexesInRange t.server := by
  cases a with
  | main =>
    obtain ⟨fd, hst, hcount, hfull⟩ := hbad
    obtain ⟨-, hlt⟩ := hs.accepted fd hst
    obtain ⟨hstep, -, -⟩ := h
    obtain ⟨u, room⟩ := t
    intro hrange
    cases hstep with
    | checkCount hst' =>
      obtain ⟨⟩ := hst.symm.trans hst'
      rw [if_neg (Int.not_le.mpr hcount)] at hrange
      have hindex := hrange .main fd (.init .sock) (Server.setThread_self ..) ⟨nofun, nofun⟩
      rw [hlt.mpr hindex.2] at hfull
      cases hfull
    | _ hst' => cases hst.symm.trans hst'
  | _ => exact False.elim hbad

/-- The array is indexed in range in every step of a run exactly if nothing passes the check
    that was accepted without room. -/
theorem inRange_iff (users : Int → HttpConn) (as : List Action) (t : Watched) :
    Run (fun s a t => WStep n m s a t ∧ ¬ s.LetsIn a) (.start users) as t ↔
      Run (fun s a t => WStep n m s a t ∧ IndexesInRange t.server) (.start users) as t :=
  Run.congr (I := Ranged) (fun _ _ _ hs h hgood => hs.step h hgood)
    (fun _ _ _ hs h => ⟨fun hgood => (hs.step h hgood).threads, fun hrange hbad => hs.letsIn h hbad hrange⟩)
    (start_ranged users)

-- ---------------------------------------------------------------------------
-- Clients up to MAX_FD
-- ---------------------------------------------------------------------------

/-- `k` clients are connected, to the descriptors from 5 on. -/
structure Crowd (k : Nat) (s : Watched) : Prop where
  idle : s.server.threads .main = none
  events : s.server.events = []
  opened : s.server.opened = Finset.Ico 5 (5 + k : Int)
  epoll : ∀ fd, 5 + (k : Int) ≤ fd → s.server.epoll fd = none
  count : s.server.userCount = k

theorem files_empty (s : Server) : Files s ∅ :=
  ⟨nofun, Finset.disjoint_empty_right _, fun _ => 0, by simp, nofun⟩

theorem Crowd.lowest {k : Nat} (h : Crowd k s) : Lowest (s.server.opened ∪ others ∪ ∅) (5 + k) := by
  constructor
  · omega
  · simp [h.opened, others]
    omega
  · intro fd hpos hlt
    simp [h.opened, others]
    omega

theorem run_watched {s t : Server} {as : List Action} {r : Bool} (hrun : Run (Step n m) s as t)
    (has : ∀ a ∈ as, ∀ connfd, a ≠ .accept connfd) : Run (WStep n m) ⟨s, r⟩ as ⟨t, r⟩ := by
  induction hrun with
  | nil s => exact .nil _
  | @cons _ u _ _ _ h _ ih =>
    obtain ⟨ha, has⟩ := List.forall_mem_cons.mp has
    exact .cons (t := ⟨u, r⟩) ⟨h, fun connfd he => absurd he (ha connfd), fun _ => rfl⟩ (ih has)

theorem accept_watched {s t : Server} {as : List Action} {r : Bool}
    (hrun : Run (Step n m) s (.wait [.listen] :: .accept fd :: as) t) (hlow : Lowest (s.opened ∪ others ∪ ∅) fd)
    (has : ∀ a ∈ as, ∀ connfd, a ≠ .accept connfd) :
    Run (WStep n m) ⟨s, r⟩ (.wait [.listen] :: .accept fd :: as) ⟨t, decide (Room s.opened ∅)⟩ := by
  obtain ⟨s₁, hwait, hrun⟩ := Run.cons_iff.mp hrun
  obtain ⟨s₂, haccept, hrun⟩ := Run.cons_iff.mp hrun
  have hopened : s₁.opened = s.opened := by
    cases hwait
    rfl
  refine .cons (t := ⟨s₁, r⟩) ⟨hwait, nofun, fun _ => rfl⟩ (.cons (t := ⟨s₂, decide (Room s.opened ∅)⟩)
    ⟨haccept, ?_, fun h => absurd rfl (h fd)⟩ (run_watched hrun has))
  rintro _ ⟨⟩
  exact ⟨∅, hopened ▸ hlow, by rw [hopened], files_empty _⟩

/-- `accept` returns 5, 6, 7, ... -/
def arrivals (k : Nat) : List Action :=
  (List.range k).flatMap fun i => connect (5 + i)

theorem arrivals_succ (k : Nat) : arrivals (k + 1) = arrivals k ++ connect (5 + k) := by
  simp [arrivals, List.range_succ]

theorem crowd (users : Int → HttpConn) (k : Nat) (hk : (k : Int) ≤ maxFd) :
    ∃ s, Run (WStep n m) (.start users) (arrivals k) s ∧ Crowd k s := by
  induction k with
  | zero => exact ⟨_, .nil _, rfl, rfl, by simp [Watched.start, Server.start], fun _ _ => rfl, rfl⟩
  | succ k ih =>
    obtain ⟨s, hrun, h⟩ := ih (by omega)
    have hconnect := connect_run (n := n) (m := m) s.server (5 + k) h.idle h.events (by omega) (by simp [h.opened])
      (h.epoll _ (by omega)) (by rw [h.count]; omega)
    have hrun' := arrivals_succ k ▸
      Run.append_iff.mpr ⟨s, hrun, accept_watched (r := s.room) hconnect h.lowest (by simp)⟩
    refine ⟨_, hrun', h.idle, h.events, ?_, ?_, ?_⟩
    · ext fd
      simp [Server.connected, h.opened]
      omega
    · intro fd hfd
      simp only [Server.connected]
      rw [Function.update_of_ne (by omega)]
      exact h.epoll fd (by omega)
    · simp [Server.connected, h.count]

/-- With 65531 clients the next descriptor is 65536, and `m_user_count` lets it in. -/
theorem crowd_overflows : ¬ ∀ users t,
    Run (WStep defaultThreadNumber defaultMaxRequests) (.start users)
      (arrivals 65531 ++ [.wait [.listen], .accept 65536, .main]) t → IndexesInRange t.server := by
  intro hall
  obtain ⟨s, hrun, h⟩ := crowd (n := defaultThreadNumber) (m := defaultMaxRequests) (fun _ => .blank) 65531 (by decide)
  have hreports : Reports s.server.epoll [.listen] := ⟨by decide, by decide, by simp⟩
  have hfree : (65536 : Int) ∉ s.server.opened := by simp [h.opened]
  have hrun' := accept_watched (r := s.room) (.cons (.wait [.listen] h.idle h.events hreports)
    (.cons (.accept h.idle rfl (by decide) hfree) (.cons (@Step.checkCount defaultThreadNumber defaultMaxRequests _ 65536 rfl)
      (.nil _)))) h.lowest (by simp)
  refine absurd (hall _ _ (Run.append_iff.mpr ⟨s, hrun, hrun'⟩) .main 65536 (.init .sock) ?_ ⟨nofun, nofun⟩).2 (by decide)
  simp [Server.setThread, Server.accept, h.count, maxFd]

end WebServer
