-- SUMMARY: The server of epoll_LT_ET in both of its modes, with its clients: what it has received when it sleeps, and whom it leaves waiting.
import LinuxLearning.Common.CString
import LinuxLearning.Common.Run
import LinuxLearning.EdgeTriggered.RecvLoop
import Mathlib.Logic.Function.Basic

/-!
# Level and edge triggering

With `lt` the server receives once for a report, with `et` until there is nothing left, in
pieces of nine bytes. Its clients connect, send and hang up whenever they like. The listening
socket is edge triggered in both modes, and a report of it is answered by one `accept`.
-/

namespace EdgeTriggered

open Transition

/-- What the other end of a connection has come to. -/
inductive Peer where
  | open
  | closed
  | reset
deriving Repr, DecidableEq

/-- A connection: what its client has sent and what of it waits to be read, what `recv` has given
    and what was printed of that, and whether anything has happened since `epoll_wait` reported it. -/
structure Client where
  sent : List UInt8
  unread : List UInt8
  received : List UInt8
  printed : List UInt8
  peer : Peer
  edge : Bool
deriving Repr, DecidableEq

/-- What a client does. -/
inductive Action where
  | send (d : List UInt8)
  | shutdown
  | reset
deriving Repr, DecidableEq

namespace Client

def new : Client :=
  ⟨[], [], [], [], .open, false⟩

def May (c : Client) : Action → Prop
  | .send _ | .shutdown => c.peer = .open
  | .reset => c.peer ≠ .reset

/-- A reset takes away what has not been read. -/
def act (c : Client) : Action → Client
  | .send d => { c with sent := c.sent ++ d, unread := c.unread ++ d, edge := true }
  | .shutdown => { c with peer := .closed, edge := true }
  | .reset => { c with unread := [], peer := .reset, edge := true }

/-- `EPOLLIN`: `recv` would not block. -/
def Readable (c : Client) : Prop :=
  c.unread ≠ [] ∨ c.peer ≠ .open

instance (c : Client) : Decidable c.Readable :=
  inferInstanceAs (Decidable (_ ∨ _))

/-- `recv(sockfd, buf, BUFFER_SIZE - 1, 0)`. -/
def Gives (c : Client) : Recv → Prop
  | .data d => c.peer ≠ .reset ∧ d ≠ [] ∧ d.length ≤ bufferSize - 1 ∧ d <+: c.unread
  | .again => c.unread = [] ∧ c.peer = .open
  | .eof => c.unread = [] ∧ c.peer = .closed
  | .error => c.peer = .reset

def take (c : Client) (d : List UInt8) : Client :=
  { c with unread := c.unread.drop d.length, received := c.received ++ d }

def print (c : Client) (content : List UInt8) : Client :=
  { c with printed := c.printed ++ content }

end Client

inductive Mode where
  | lt
  | et
deriving Repr, DecidableEq

/-- An element of `events`: the listening socket, or a connection and whether `EPOLLIN` is set. -/
inductive EpollEvent where
  | listen
  | socket (fd : Int) (epollin : Bool)
deriving Repr, DecidableEq

/-- The socket that the event makes the server receive from. -/
def EpollEvent.target : EpollEvent → Option Int
  | .socket fd true => some fd
  | _ => none

/-- `MAX_EVENT_NUMBER`. -/
def maxEventNumber : Nat := 1024

/-- The body of `lt` for a connection with `EPOLLIN`. -/
def lt : Recv → List Op
  | .data d => [.recv, .printGot d.length ((filled bufferSize d).takeWhile (· ≠ 0))]
  | .again | .error | .eof => [.recv, .close]

/-- What is done with a result of `recv`, and whether another `recv` follows. -/
def handle : Mode → Recv → List Op × Bool
  | .lt, r => (lt r, false)
  | .et, r => et r

structure LtEt where
  mode : Mode
  /-- The connections that wait for `accept`, the oldest first. -/
  backlog : List Client
  /-- One of them has come since `epoll_wait` reported the listening socket. -/
  knock : Bool
  conns : Int → Option Client
  /-- The connections that the server has closed. -/
  closed : List Client
  /-- What is left of `events`. -/
  events : List EpollEvent
  /-- The connection that the server receives from. -/
  receiving : Option Int

/-- What happens: a client connects, with or without an earlier one still to be reported, or does
    something; `epoll_wait` returns; the server handles an event, or calls `recv`. -/
inductive Label where
  | connect (behind : Bool)
  | waiting (i : Nat) (a : Action)
  | client (fd : Int) (a : Action)
  | epollWait (events : List EpollEvent)
  | accept (connfd : Option Int)
  | ready (sockfd : Int)
  | other (sockfd : Int)
  | recv (r : Recv)
deriving Repr, DecidableEq

/-- A client that has come behind another one, or that `accept` has failed for. -/
def Label.leavesWaiting : Label → Bool
  | .connect behind => behind
  | .accept none => true
  | _ => false

namespace LtEt

def update (s : LtEt) (fd : Int) (f : Client → Client) : LtEt :=
  { s with conns := Function.update s.conns fd ((s.conns fd).map f) }

/-- `close(fd)`, which fails where the descriptor is closed already. -/
def close (s : LtEt) (fd : Int) : LtEt :=
  match s.conns fd with
  | some c => { s with conns := Function.update s.conns fd none, closed := c :: s.closed }
  | none => s

/-- What a call does. -/
def perform (sockfd : Int) (r : Recv) (s : LtEt) : Op → LtEt
  | .recv =>
    match r with
    | .data d => s.update sockfd (·.take d)
    | .again | .error | .eof => s
  | .printGot _ content => s.update sockfd (·.print content)
  | .close => s.close sockfd
  | .send _ | .printReadLater => s

def recv (s : LtEt) (sockfd : Int) (r : Recv) : LtEt :=
  let (ops, goesOn) := handle s.mode r
  { ops.foldl (perform sockfd r) s with receiving := if goesOn then some sockfd else none }

/-- What `recv` may give. A closed descriptor gives an error. -/
def Gives (s : LtEt) (sockfd : Int) (r : Recv) : Prop :=
  match s.conns sockfd with
  | some c => c.Gives r
  | none => r = .error

/-- What `epoll_wait` may report. -/
def Reports (s : LtEt) : EpollEvent → Prop
  | .listen => s.knock = true
  | .socket fd epollin => ∃ c, s.conns fd = some c ∧ (s.mode = .et → c.edge = true) ∧ (epollin = true ↔ c.Readable)

/-- `epoll_wait` returns these events. -/
def report (s : LtEt) (events : List EpollEvent) : LtEt :=
  { s with
    events := events
    knock := s.knock && !events.contains .listen
    conns := fun fd =>
      if .socket fd true ∈ events ∨ .socket fd false ∈ events then (s.conns fd).map ({ · with edge := false })
      else s.conns fd }

/-- `addfd`, which reports a socket that is readable already. -/
def addfd (s : LtEt) (connfd : Int) (c : Client) : LtEt :=
  { s with conns := Function.update s.conns connfd (some { c with edge := decide c.Readable }) }

inductive Step : LtEt → Label → LtEt → Prop where
  | connect (s : LtEt) : Step s (.connect s.knock) { s with backlog := s.backlog ++ [.new], knock := true }
  | waiting {s : LtEt} {i : Nat} {c : Client} {a : Action} : s.backlog[i]? = some c → c.May a →
      Step s (.waiting i a) { s with backlog := s.backlog.set i (c.act a) }
  | client {s : LtEt} {fd : Int} {c : Client} {a : Action} : s.conns fd = some c → c.May a →
      Step s (.client fd a) { s with conns := Function.update s.conns fd (some (c.act a)) }
  | epollWait {s : LtEt} {events : List EpollEvent} : s.receiving = none → s.events = [] →
      events.length ≤ maxEventNumber → events.Nodup → (∀ ev ∈ events, s.Reports ev) →
      Step s (.epollWait events) (s.report events)
  | accept {s : LtEt} {rest : List EpollEvent} {c : Client} {backlog : List Client} {connfd : Int} :
      s.receiving = none → s.events = .listen :: rest → s.backlog = c :: backlog → s.conns connfd = none →
      Step s (.accept (some connfd)) ({ s with events := rest, backlog := backlog }.addfd connfd c)
  | acceptFails {s : LtEt} {rest : List EpollEvent} : s.receiving = none → s.events = .listen :: rest →
      Step s (.accept none) { s with events := rest }
  | ready {s : LtEt} {rest : List EpollEvent} {fd : Int} : s.receiving = none → s.events = .socket fd true :: rest →
      Step s (.ready fd) { s with events := rest, receiving := some fd }
  | other {s : LtEt} {rest : List EpollEvent} {fd : Int} : s.receiving = none → s.events = .socket fd false :: rest →
      Step s (.other fd) { s with events := rest }
  | recv {s : LtEt} {fd : Int} {r : Recv} : s.receiving = some fd → s.Gives fd r → Step s (.recv r) (s.recv fd r)

def start (mode : Mode) : LtEt where
  mode := mode
  backlog := []
  knock := false
  conns := fun _ => none
  closed := []
  events := []
  receiving := none

/-- The server sleeps: it is in `epoll_wait`, and nothing that it would handle is reported. -/
def Rests (s : LtEt) : Prop :=
  s.receiving = none ∧ s.events = [] ∧ ∀ ev, s.Reports ev → ∃ fd, ev = .socket fd false

end LtEt

-- ---------------------------------------------------------------------------
-- Connections
-- ---------------------------------------------------------------------------

variable {c : Client} {a : Action} {d : List UInt8} {r : Recv}

namespace Client

/-- What was received and what waits is what was sent, up to a reset, and what was received is
    printed. -/
structure Intact (c : Client) : Prop where
  kept : c.received ++ c.unread <+: c.sent
  whole : c.peer ≠ .reset → c.received ++ c.unread = c.sent
  printed : (∀ b ∈ c.sent, b ≠ 0) → c.printed = c.received

/-- Nothing more can come of the connection. -/
structure Finished (c : Client) : Prop where
  intact : c.Intact
  ended : c.peer = .reset ∨ c.peer = .closed ∧ c.received = c.sent

theorem new_intact : new.Intact :=
  ⟨List.prefix_refl _, fun _ => rfl, fun _ => rfl⟩

theorem Intact.whole_of_open (h : c.Intact) (hopen : c.peer = .open) : c.received ++ c.unread = c.sent := by
  refine h.whole ?_
  rw [hopen]
  decide

/-- What `epoll` knows of a connection is no matter of its bytes. -/
theorem Intact.setEdge (h : c.Intact) (edge : Bool) : { c with edge := edge }.Intact :=
  ⟨h.kept, h.whole, h.printed⟩

theorem Intact.act (h : c.Intact) (hmay : c.May a) : (c.act a).Intact := by
  cases a with
  | send d =>
    have hall : c.received ++ (c.unread ++ d) = c.sent ++ d := by
      rw [← List.append_assoc, h.whole_of_open hmay]
    exact ⟨hall ▸ List.prefix_refl _, fun _ => hall, fun hnul => h.printed fun b hb => hnul b (List.mem_append_left d hb)⟩
  | shutdown => exact ⟨h.kept, fun _ => h.whole_of_open hmay, h.printed⟩
  | reset =>
    refine ⟨?_, fun hne => absurd rfl hne, h.printed⟩
    show c.received ++ [] <+: c.sent
    rw [List.append_nil]
    exact (List.prefix_append c.received c.unread).trans h.kept

/-- What a client does may be read, if something could be read before. -/
theorem Readable.act (h : c.Readable) (hmay : c.May a) : (c.act a).Readable := by
  cases a with
  | send d => exact h.imp_left fun hne => by simp [Client.act, hne]
  | shutdown => exact .inr (by simp [Client.act])
  | reset => exact .inr (by simp [Client.act])

theorem act_edge (c : Client) (a : Action) : (c.act a).edge = true := by
  cases a <;> rfl

/-- `recv` gives the first bytes that wait, and they are printed. -/
theorem Intact.take (h : c.Intact) (hgives : c.Gives (.data d)) :
    ((c.take d).print ((filled bufferSize d).takeWhile (· ≠ 0))).Intact := by
  obtain ⟨-, -, -, rest, hrest⟩ := hgives
  have hdrop : c.unread.drop d.length = rest := by rw [← hrest, List.drop_left]
  have hall : c.received ++ d ++ c.unread.drop d.length = c.received ++ c.unread := by
    rw [hdrop, List.append_assoc, hrest]
  refine ⟨hall ▸ h.kept, fun hne => hall.trans (h.whole hne), fun hnul => ?_⟩
  have hd : ∀ b ∈ d, b ≠ 0 := by
    intro b hb
    have hunread : b ∈ c.unread := hrest ▸ List.mem_append_left rest hb
    exact hnul b (h.kept.subset (List.mem_append_right _ hunread))
  show c.printed ++ _ = c.received ++ d
  rw [filled, CString.takeWhile_padded hd, h.printed hnul]

theorem Intact.finished (h : c.Intact) (hgives : c.Gives r) (hend : r = .eof ∨ r = .error) : c.Finished := by
  refine ⟨h, ?_⟩
  rcases hend with rfl | rfl
  · obtain ⟨hunread, hpeer⟩ := hgives
    have hwhole := h.whole (hpeer ▸ by decide)
    rw [hunread, List.append_nil] at hwhole
    exact .inr ⟨hpeer, hwhole⟩
  · exact .inl hgives

/-- Where nothing could be read, everything was received and the client may still send. -/
theorem Intact.drained (h : c.Intact) (hread : ¬ c.Readable) : c.peer = .open ∧ c.received = c.sent := by
  obtain ⟨hunread, hpeer⟩ := not_or.mp hread
  have hpeer := not_not.mp hpeer
  have hwhole := h.whole_of_open hpeer
  rw [not_not.mp hunread, List.append_nil] at hwhole
  exact ⟨hpeer, hwhole⟩

/-- A socket that could be read gives no `EAGAIN`. -/
theorem Readable.not_again (h : c.Readable) : ¬ c.Gives .again := by
  rintro ⟨hunread, hpeer⟩
  exact h.elim (absurd hunread) (absurd hpeer)

end Client

namespace LtEt

variable {s t : LtEt} {fd : Int} {e : Label} {es : List Label} {mode : Mode}

-- ---------------------------------------------------------------------------
-- Receiving
-- ---------------------------------------------------------------------------

/-- The states before and after are the same but for the connection `fd` and those closed. -/
structure Frame (fd : Int) (s t : LtEt) : Prop where
  mode : t.mode = s.mode
  backlog : t.backlog = s.backlog
  knock : t.knock = s.knock
  events : t.events = s.events
  conns : ∀ fd', fd' ≠ fd → t.conns fd' = s.conns fd'

theorem Frame.trans {u : LtEt} (h : Frame fd s t) (h' : Frame fd t u) : Frame fd s u :=
  ⟨h'.mode.trans h.mode, h'.backlog.trans h.backlog, h'.knock.trans h.knock, h'.events.trans h.events,
    fun fd' hne => (h'.conns fd' hne).trans (h.conns fd' hne)⟩

theorem update_frame (s : LtEt) (fd : Int) (f : Client → Client) : Frame fd s (s.update fd f) :=
  ⟨rfl, rfl, rfl, rfl, fun _ hne => Function.update_of_ne hne ..⟩

theorem close_frame (s : LtEt) (fd : Int) : Frame fd s (s.close fd) := by
  unfold close
  split
  · exact ⟨rfl, rfl, rfl, rfl, fun _ hne => Function.update_of_ne hne ..⟩
  · exact ⟨rfl, rfl, rfl, rfl, fun _ _ => rfl⟩

theorem perform_frame (s : LtEt) (fd : Int) (r : Recv) (op : Op) : Frame fd s (perform fd r s op) := by
  have hsame : Frame fd s s := ⟨rfl, rfl, rfl, rfl, fun _ _ => rfl⟩
  cases op with
  | recv =>
    cases r with
    | data d => exact update_frame s fd _
    | _ => exact hsame
  | printGot n content => exact update_frame s fd _
  | close => exact close_frame s fd
  | send d => exact hsame
  | printReadLater => exact hsame

theorem recv_frame (s : LtEt) (fd : Int) (r : Recv) : Frame fd s (s.recv fd r) := by
  have hops : ∀ (ops : List Op) (s : LtEt), Frame fd s (ops.foldl (perform fd r) s) := by
    intro ops
    induction ops with
    | nil => exact fun s => ⟨rfl, rfl, rfl, rfl, fun _ _ => rfl⟩
    | cons op ops ih => exact fun s => (perform_frame s fd r op).trans (ih _)
  have h := hops (handle s.mode r).1 s
  exact ⟨h.mode, h.backlog, h.knock, h.events, h.conns⟩

theorem recv_data (hc : s.conns fd = some c) (d : List UInt8) :
    (s.recv fd (.data d)).conns fd = some ((c.take d).print ((filled bufferSize d).takeWhile (· ≠ 0))) ∧
      (s.recv fd (.data d)).closed = s.closed ∧
      (s.recv fd (.data d)).receiving = if s.mode = .et then some fd else none := by
  cases hmode : s.mode <;>
    simp [recv, handle, hmode, lt, et, iteration, perform, update, hc]

/-- The end of a connection makes the server close it. -/
theorem recv_end (hc : s.conns fd = some c) (hr : r = .eof ∨ r = .error) :
    (s.recv fd r).conns fd = none ∧ (s.recv fd r).closed = c :: s.closed := by
  rcases hr with rfl | rfl <;> cases hmode : s.mode <;>
    simp [recv, handle, hmode, lt, et, iteration, perform, close, hc]

theorem recv_gone (hc : s.conns fd = none) :
    (s.recv fd .error).conns fd = none ∧ (s.recv fd .error).closed = s.closed := by
  cases hmode : s.mode <;>
    simp [recv, handle, hmode, lt, et, iteration, perform, close, hc]

theorem recv_again (hmode : s.mode = .et) : s.recv fd .again = { s with receiving := none } := by
  simp [recv, handle, hmode, et, iteration, perform]

/-- `lt` receives once, and `et` goes on after data. -/
theorem recv_receiving (s : LtEt) (fd : Int) (r : Recv) :
    (s.recv fd r).receiving = if (handle s.mode r).2 then some fd else none :=
  rfl

-- ---------------------------------------------------------------------------
-- What is reported
-- ---------------------------------------------------------------------------

/-- The sockets that the server is going to receive from before it sleeps again. -/
def targets (s : LtEt) : List Int :=
  s.receiving.toList ++ s.events.filterMap EpollEvent.target

/-- Under level triggering what is reported can still be read when its turn comes. Under edge
    triggering a socket that can be read is reported, or is going to be. -/
structure Watched (s : LtEt) : Prop where
  level : s.mode = .lt → s.targets.Nodup ∧ ∀ fd ∈ s.targets, ∃ c, s.conns fd = some c ∧ c.Readable
  edge : s.mode = .et → ∀ fd c, s.conns fd = some c → c.Readable → c.edge = true ∨ fd ∈ s.targets

theorem Watched.congr (h : s.Watched) (hmode : t.mode = s.mode) (hconns : t.conns = s.conns)
    (htargets : t.targets = s.targets) : t.Watched := by
  constructor
  · rw [hmode, hconns, htargets]
    exact h.level
  · rw [hmode, hconns, htargets]
    exact h.edge

/-- An event that makes the server receive from nobody is done with. -/
theorem Watched.skip (h : s.Watched) {ev : EpollEvent} {rest : List EpollEvent} (hevents : s.events = ev :: rest)
    (htarget : ev.target = none) (backlog : List Client) :
    { s with events := rest, backlog := backlog }.Watched := by
  refine h.congr rfl rfl ?_
  rw [targets, targets, hevents, List.filterMap_cons_none htarget]

/-- What a table holds where one place was changed. -/
theorem of_update {conns : Int → Option Client} {conn : Option Client} {fd' : Int}
    (h : Function.update conns fd conn fd' = some c) :
    fd' = fd ∧ conn = some c ∨ fd' ≠ fd ∧ conns fd' = some c := by
  by_cases hne : fd' = fd
  · subst hne
    rw [Function.update_self] at h
    exact .inl ⟨rfl, h⟩
  · rw [Function.update_of_ne hne] at h
    exact .inr ⟨hne, h⟩

/-- A client acts: its socket has something to be reported. -/
theorem Watched.act (h : s.Watched) (hc : s.conns fd = some c) (hmay : c.May a) :
    { s with conns := Function.update s.conns fd (some (c.act a)) }.Watched where
  level hmode := by
    refine ⟨(h.level hmode).1, fun fd' hfd' => ?_⟩
    obtain ⟨c', hc', hread⟩ := (h.level hmode).2 fd' hfd'
    by_cases hfd : fd' = fd
    · subst hfd
      obtain rfl : c = c' := Option.some.inj (hc.symm.trans hc')
      exact ⟨_, Function.update_self .., hread.act hmay⟩
    · exact ⟨c', (Function.update_of_ne hfd ..).trans hc', hread⟩
  edge hmode fd' c' hc' hread := by
    obtain ⟨rfl, hact⟩ | ⟨-, hold⟩ := of_update hc'
    · cases hact
      exact .inl (c.act_edge a)
    · exact h.edge hmode fd' c' hold hread

/-- A new connection is reported if it can be read already. -/
theorem Watched.addfd (h : s.Watched) (hnone : s.conns fd = none) (c : Client) : (s.addfd fd c).Watched where
  level hmode := by
    refine ⟨(h.level hmode).1, fun fd' hfd' => ?_⟩
    obtain ⟨c', hc', hread⟩ := (h.level hmode).2 fd' hfd'
    have hfd : fd' ≠ fd := by
      rintro rfl
      rw [hnone] at hc'
      cases hc'
    exact ⟨c', (Function.update_of_ne hfd ..).trans hc', hread⟩
  edge hmode fd' c' hc' hread := by
    obtain ⟨rfl, hadd⟩ | ⟨-, hold⟩ := of_update hc'
    · cases hadd
      exact .inl (decide_eq_true hread)
    · exact h.edge hmode fd' c' hold hread

theorem mem_target {events : List EpollEvent} :
    fd ∈ events.filterMap EpollEvent.target ↔ .socket fd true ∈ events := by
  rw [List.mem_filterMap]
  constructor
  · rintro ⟨ev, hev, htarget⟩
    cases ev with
    | listen => cases htarget
    | socket fd' epollin =>
      cases epollin with
      | false => cases htarget
      | true =>
        cases htarget
        exact hev
  · exact fun hev => ⟨_, hev, rfl⟩

theorem report_conns {events : List EpollEvent} {c' : Client} (hc' : (s.report events).conns fd = some c') :
    ∃ c, s.conns fd = some c ∧ (c' = c ∧ .socket fd true ∉ events ∧ .socket fd false ∉ events ∨
      c' = { c with edge := false } ∧ (.socket fd true ∈ events ∨ .socket fd false ∈ events)) := by
  simp only [report] at hc'
  split at hc'
  · next hmem =>
    obtain ⟨c, hc, rfl⟩ := Option.map_eq_some_iff.mp hc'
    exact ⟨c, hc, .inr ⟨rfl, hmem⟩⟩
  · next hmem => exact ⟨c', hc', .inl ⟨rfl, not_or.mp hmem⟩⟩

theorem Watched.report (h : s.Watched) (hreceiving : s.receiving = none) (hevents : s.events = [])
    {events : List EpollEvent} (hnodup : events.Nodup) (hreports : ∀ ev ∈ events, s.Reports ev) :
    (s.report events).Watched where
  level _ := by
    have htargets : (s.report events).targets = events.filterMap EpollEvent.target := by
      simp [targets, LtEt.report, hreceiving]
    rw [htargets]
    constructor
    · refine hnodup.filterMap fun ev ev' fd hev hev' => ?_
      -- only the event with `EPOLLIN` leads to the socket
      cases ev <;> cases ev' <;> simp_all [EpollEvent.target]
      grind
    · intro fd hfd
      obtain ⟨c, hc, -, hread⟩ := hreports _ (mem_target.mp hfd)
      refine ⟨{ c with edge := false }, ?_, hread.mp rfl⟩
      simp [LtEt.report, mem_target.mp hfd, hc]
  edge hmode fd c' hc' hread := by
    have hnone : s.targets = [] := by simp [targets, hreceiving, hevents]
    obtain ⟨c, hc, ⟨rfl, -⟩ | ⟨rfl, hmem⟩⟩ := report_conns hc'
    · rcases h.edge hmode fd c' hc hread with hedge | hfd
      · exact .inl hedge
      · rw [hnone] at hfd
        cases hfd
    · refine .inr (List.mem_append_right _ (mem_target.mpr ?_))
      refine hmem.resolve_right fun hfalse => ?_
      obtain ⟨c₁, hc₁, -, hiff⟩ := hreports _ hfalse
      obtain rfl : c = c₁ := Option.some.inj (hc.symm.trans hc₁)
      cases hiff.mpr hread

/-- After `recv` the other sockets are watched as before, and the one received from has nothing
    left if the server leaves it. -/
theorem Watched.recv (h : s.Watched) (hfd : s.receiving = some fd) (r : Recv)
    (hlt : s.mode = .lt → (s.recv fd r).receiving = none)
    (hleft : s.mode = .et → (s.recv fd r).receiving = none →
      ∀ c, (s.recv fd r).conns fd = some c → ¬ c.Readable) : (s.recv fd r).Watched := by
  have hframe := recv_frame s fd r
  have hs : s.targets = fd :: s.events.filterMap EpollEvent.target := by simp [targets, hfd]
  have ht : (s.recv fd r).targets =
      (s.recv fd r).receiving.toList ++ s.events.filterMap EpollEvent.target := by
    rw [targets, hframe.events]
  constructor
  · intro hmode
    rw [hframe.mode] at hmode
    have hnodup := (h.level hmode).1
    rw [hs] at hnodup
    rw [ht, hlt hmode]
    refine ⟨(List.nodup_cons.mp hnodup).2, fun fd' hfd' => ?_⟩
    have hne : fd' ≠ fd := by
      rintro rfl
      exact (List.nodup_cons.mp hnodup).1 hfd'
    obtain ⟨c, hc, hread⟩ := (h.level hmode).2 fd' (hs ▸ List.mem_cons_of_mem _ hfd')
    exact ⟨c, (hframe.conns fd' hne).trans hc, hread⟩
  · intro hmode fd' c hc hread
    rw [hframe.mode] at hmode
    rw [ht]
    by_cases hne : fd' = fd
    · subst hne
      rw [recv_receiving] at hleft ⊢
      split at hleft
      · rw [if_pos ‹_›]
        exact .inr (List.mem_cons_self ..)
      · exact absurd hread (hleft hmode rfl c hc)
    · rcases h.edge hmode fd' c ((hframe.conns fd' hne).symm.trans hc) hread with hedge | hmem
      · exact .inl hedge
      · rw [hs] at hmem
        exact .inr (List.mem_append_right _ ((List.mem_cons.mp hmem).resolve_left hne))

-- ---------------------------------------------------------------------------
-- Runs
-- ---------------------------------------------------------------------------

structure Inv (s : LtEt) : Prop where
  backlog : ∀ c ∈ s.backlog, c.Intact
  conns : ∀ fd c, s.conns fd = some c → c.Intact
  closed : ∀ c ∈ s.closed, c.Finished
  watched : s.Watched

theorem start_inv (mode : Mode) : (start mode).Inv where
  backlog := by simp [start]
  conns := by simp [start]
  closed := by simp [start]
  watched := ⟨fun _ => by simp [start, targets], fun _ => by simp [start]⟩

/-- Under level triggering `recv` does not find a socket empty. -/
theorem Inv.not_again (h : s.Inv) (hfd : s.receiving = some fd) (hgives : s.Gives fd .again) : s.mode = .et := by
  cases hmode : s.mode with
  | et => rfl
  | lt =>
    obtain ⟨c, hc, hread⟩ := (h.watched.level hmode).2 fd (by simp [targets, hfd])
    rw [Gives, hc] at hgives
    exact absurd hgives hread.not_again

/-- What `recv` leaves of the connection and adds to those closed. -/
theorem Inv.recv_clients (h : s.Inv) (hfd : s.receiving = some fd) (hgives : s.Gives fd r) :
    (∀ c, (s.recv fd r).conns fd = some c → c.Intact ∧ ((s.recv fd r).receiving = none → s.mode = .et → ¬ c.Readable)) ∧
      ∀ c ∈ (s.recv fd r).closed, c.Finished := by
  cases hconn : s.conns fd with
  | none =>
    rw [Gives, hconn] at hgives
    obtain rfl : r = .error := hgives
    obtain ⟨hnone, hclosed⟩ := recv_gone hconn
    rw [hnone, hclosed]
    exact ⟨fun c hc => (by cases hc), h.closed⟩
  | some c =>
    have hgives' := hgives
    rw [Gives, hconn] at hgives'
    have hintact := h.conns fd c hconn
    have hend : r = .eof ∨ r = .error → (∀ c, (s.recv fd r).conns fd = some c →
        c.Intact ∧ ((s.recv fd r).receiving = none → s.mode = .et → ¬ c.Readable)) ∧
        ∀ c ∈ (s.recv fd r).closed, c.Finished := by
      intro hr
      obtain ⟨hnone, hclosed⟩ := recv_end hconn hr
      rw [hnone, hclosed]
      exact ⟨fun c hc => (by cases hc), List.forall_mem_cons.mpr ⟨hintact.finished hgives' hr, h.closed⟩⟩
    cases r with
    | data d =>
      obtain ⟨hdata, hclosed, hreceiving⟩ := recv_data hconn d
      rw [hdata, hclosed, hreceiving]
      refine ⟨fun c hc => ?_, h.closed⟩
      cases hc
      refine ⟨hintact.take hgives', fun hnone hmode => ?_⟩
      rw [if_pos hmode] at hnone
      cases hnone
    | again =>
      rw [recv_again (h.not_again hfd hgives)]
      refine ⟨fun c' hc' => ?_, h.closed⟩
      obtain rfl : c = c' := Option.some.inj (hconn.symm.trans hc')
      exact ⟨hintact, fun _ _ hread => hread.not_again hgives'⟩
    | eof => exact hend (.inl rfl)
    | error => exact hend (.inr rfl)

theorem Inv.recv (h : s.Inv) (hfd : s.receiving = some fd) (hgives : s.Gives fd r) : (s.recv fd r).Inv := by
  have hframe := recv_frame s fd r
  obtain ⟨hconn, hclosed⟩ := h.recv_clients hfd hgives
  refine ⟨hframe.backlog ▸ h.backlog, fun fd' c hc => ?_, hclosed, h.watched.recv hfd r (fun hmode => ?_) ?_⟩
  · by_cases hne : fd' = fd
    · subst hne
      exact (hconn c hc).1
    · exact h.conns fd' c ((hframe.conns fd' hne).symm.trans hc)
  · rw [recv_receiving, hmode]
    rfl
  · exact fun hmode hnone c hc => (hconn c hc).2 hnone hmode

theorem Inv.step (h : s.Inv) (hstep : Step s e t) : t.Inv := by
  cases hstep with
  | connect =>
    refine ⟨fun c hc => ?_, h.conns, h.closed, h.watched.congr rfl rfl rfl⟩
    rcases List.mem_append.mp hc with hc | hc
    · exact h.backlog c hc
    · rw [List.mem_singleton.mp hc]
      exact Client.new_intact
  | @waiting i c a hc hmay =>
    refine ⟨fun c' hc' => ?_, h.conns, h.closed, h.watched.congr rfl rfl rfl⟩
    rcases List.mem_or_eq_of_mem_set hc' with hmem | rfl
    · exact h.backlog c' hmem
    · exact (h.backlog c (List.mem_of_getElem? hc)).act hmay
  | @client fd c a hc hmay =>
    refine ⟨h.backlog, fun fd' c' hc' => ?_, h.closed, h.watched.act hc hmay⟩
    obtain ⟨-, hact⟩ | ⟨-, hold⟩ := of_update hc'
    · cases hact
      exact (h.conns fd c hc).act hmay
    · exact h.conns fd' c' hold
  | epollWait hreceiving hevents _ hnodup hreports =>
    refine ⟨h.backlog, fun fd c' hc' => ?_, h.closed, h.watched.report hreceiving hevents hnodup hreports⟩
    obtain ⟨c, hc, ⟨rfl, -⟩ | ⟨rfl, -⟩⟩ := report_conns hc'
    · exact h.conns fd c' hc
    · exact (h.conns fd c hc).setEdge false
  | @accept rest c backlog connfd hreceiving hevents hbacklog hnone =>
    have hmem : ∀ c' ∈ c :: backlog, c'.Intact := hbacklog ▸ h.backlog
    obtain ⟨hc, hrest⟩ := List.forall_mem_cons.mp hmem
    have hwatched := h.watched.skip hevents rfl backlog
    refine ⟨hrest, fun fd' c' hc' => ?_, h.closed, hwatched.addfd hnone c⟩
    obtain ⟨-, hadd⟩ | ⟨-, hold⟩ := of_update hc'
    · cases hadd
      exact hc.setEdge _
    · exact h.conns fd' c' hold
  | acceptFails _ hevents => exact ⟨h.backlog, h.conns, h.closed, h.watched.skip hevents rfl s.backlog⟩
  | ready hreceiving hevents =>
    exact ⟨h.backlog, h.conns, h.closed,
      h.watched.congr rfl rfl (by simp [targets, hreceiving, hevents, EpollEvent.target])⟩
  | other _ hevents => exact ⟨h.backlog, h.conns, h.closed, h.watched.skip hevents rfl s.backlog⟩
  | recv hfd hgives => exact h.recv hfd hgives

theorem run_inv (hrun : Run Step (start mode) es s) : s.Inv :=
  Run.invariant (fun _ _ _ h hstep => h.step hstep) hrun (start_inv mode)

/-- A socket that could be read when the server sleeps would have been reported. -/
theorem Inv.rests (h : s.Inv) (hrest : s.Rests) (hc : s.conns fd = some c) : ¬ c.Readable := by
  obtain ⟨hreceiving, hevents, hnothing⟩ := hrest
  intro hread
  have hedge : s.mode = .et → c.edge = true := by
    intro hmode
    refine (h.watched.edge hmode fd c hc hread).resolve_right fun hfd => ?_
    simp [targets, hreceiving, hevents] at hfd
  obtain ⟨fd', hfd'⟩ := hnothing (.socket fd true) ⟨c, hc, hedge, by simpa using hread⟩
  cases hfd'

/-- In both modes, what the server receives is a beginning of what the client sends and is
    printed as it is; a connection is only closed at its end; and when the server sleeps, it has
    received everything from everyone. -/
theorem received_whole (hrun : Run Step (start mode) es s) :
    (∀ fd c, s.conns fd = some c → c.received <+: c.sent ∧ ((∀ b ∈ c.sent, b ≠ 0) → c.printed = c.received)) ∧
      (∀ c ∈ s.closed, c.peer = .reset ∨ c.peer = .closed ∧ c.received = c.sent) ∧
      (s.Rests → ∀ fd c, s.conns fd = some c → c.peer = .open ∧ c.received = c.sent) := by
  have hinv := run_inv hrun
  refine ⟨fun fd c hc => ?_, fun c hc => (hinv.closed c hc).ended, fun hrest fd c hc => ?_⟩
  · have hintact := hinv.conns fd c hc
    exact ⟨(List.prefix_append _ _).trans hintact.kept, hintact.printed⟩
  · exact (hinv.conns fd c hc).drained (hinv.rests hrest hc)

/-- Two clients connect before the server is told, and the first of them sends something. -/
def twoClients : List Label :=
  [.connect false, .connect true, .waiting 0 (.send [72, 105]), .epollWait [.listen], .accept (some 5),
    .epollWait [.socket 5 true], .ready 5, .recv (.data [72, 105])]

theorem start_rests (mode : Mode) : (start mode).Rests := by
  refine ⟨rfl, rfl, fun ev hev => ?_⟩
  cases ev with
  | listen => cases hev
  | socket fd epollin =>
    obtain ⟨c, hc, -⟩ := hev
    cases hc

theorem twoClients_run : ∃ s, Run Step (start .lt) twoClients s ∧ s.Rests := by
  refine ⟨_, .cons (.connect _) (.cons (.connect _) (.cons (.waiting rfl rfl) (.cons (.epollWait rfl rfl ?_ ?_ ?_)
    (.cons (.accept rfl rfl rfl rfl) (.cons (.epollWait rfl rfl ?_ ?_ ?_)
    (.cons (.ready rfl rfl) (.cons (.recv rfl ?_) (.nil _)))))))), rfl, rfl, ?_⟩
  · decide
  · decide
  · exact List.forall_mem_singleton.mpr rfl
  · decide
  · decide
  · refine List.forall_mem_singleton.mpr ⟨_, rfl, fun _ => rfl, ?_⟩
    decide
  · exact ⟨by decide, by decide, by decide, List.prefix_refl _⟩
  · intro ev hev
    cases ev with
    | listen => cases hev
    | socket fd epollin =>
      obtain ⟨c, hc, -, hread⟩ := hev
      by_cases hfd : fd = 5
      · subst hfd
        cases hc
        have hempty : epollin ≠ true := fun htrue => absurd (hread.mp htrue) (by decide)
        exact ⟨5, by rw [Bool.of_not_eq_true hempty]⟩
      · simp [recv, handle, lt, perform, update, report, addfd, start, hfd] at hc

theorem received_whole_twoClients : ∃ s, Run Step (start .lt) twoClients s ∧ s.Rests ∧
    (∀ fd c, s.conns fd = some c → c.received <+: c.sent ∧ ((∀ b ∈ c.sent, b ≠ 0) → c.printed = c.received)) ∧
      (∀ c ∈ s.closed, c.peer = .reset ∨ c.peer = .closed ∧ c.received = c.sent) ∧
      (s.Rests → ∀ fd c, s.conns fd = some c → c.peer = .open ∧ c.received = c.sent) := by
  obtain ⟨s, hrun, hrest⟩ := twoClients_run
  exact ⟨s, hrun, hrest, received_whole hrun⟩

-- ---------------------------------------------------------------------------
-- The listening socket
-- ---------------------------------------------------------------------------

/-- The clients that a report of the listening socket is still to come for, or to be handled. -/
def expected (s : LtEt) : Nat :=
  s.events.count .listen + s.knock.toNat

theorem Rests.expected (h : s.Rests) : s.expected = 0 := by
  obtain ⟨-, hevents, hnothing⟩ := h
  have hknock : s.knock = false := by
    by_contra hknock
    obtain ⟨fd, hfd⟩ := hnothing .listen (Bool.of_not_eq_false hknock)
    cases hfd
  simp [LtEt.expected, hevents, hknock]

/-- A report of the listening socket answers the clients that have come since the last one. -/
theorem report_expected (hevents : s.events = []) {events : List EpollEvent} (hnodup : events.Nodup)
    (hreports : ∀ ev ∈ events, s.Reports ev) : (s.report events).expected = s.expected := by
  by_cases hlisten : .listen ∈ events
  · have hknock : s.knock = true := hreports _ hlisten
    simp [expected, report, hevents, hknock, hlisten, List.count_eq_one_of_mem hnodup hlisten]
  · simp [expected, report, hevents, hlisten, List.count_eq_zero_of_not_mem hlisten]

theorem recv_expected (s : LtEt) (fd : Int) (r : Recv) :
    (s.recv fd r).backlog = s.backlog ∧ (s.recv fd r).expected = s.expected := by
  have hframe := recv_frame s fd r
  exact ⟨hframe.backlog, by rw [expected, hframe.events, hframe.knock, expected]⟩

/-- A step adds to those who wait without being expected exactly if its label says so. -/
theorem Step.backlog (hstep : Step s e t) :
    t.backlog.length + s.expected = s.backlog.length + t.expected + [e].countP Label.leavesWaiting := by
  cases hstep with
  | connect => cases hknock : s.knock <;> simp [expected, hknock, Label.leavesWaiting] <;> omega
  | waiting _ _ => simp [expected, Label.leavesWaiting]
  | client _ _ => simp [expected, Label.leavesWaiting]
  | epollWait _ hevents _ hnodup hreports =>
    rw [report_expected hevents hnodup hreports]
    simp [report, Label.leavesWaiting]
  | accept _ hevents hbacklog _ =>
    simp [expected, addfd, hevents, hbacklog, Label.leavesWaiting]
    omega
  | acceptFails _ hevents =>
    simp [expected, hevents, Label.leavesWaiting]
    omega
  | ready _ hevents => simp [expected, hevents, Label.leavesWaiting]
  | other _ hevents => simp [expected, hevents, Label.leavesWaiting]
  | @recv fd r _ _ =>
    obtain ⟨hbacklog, hexpected⟩ := recv_expected s fd r
    simp [hbacklog, hexpected, Label.leavesWaiting]

theorem run_backlog (hrun : Run Step s es t) :
    t.backlog.length + s.expected = s.backlog.length + t.expected + es.countP Label.leavesWaiting := by
  induction hrun with
  | nil s => simp
  | @cons s u t e es hstep _ ih =>
    have h := hstep.backlog
    rw [← List.singleton_append, List.countP_append]
    omega

/-- From one time the server sleeps to another, the clients that wait for `accept` grow by those
    that came behind another one or that `accept` failed for, and never become fewer. -/
theorem left_waiting (hs : s.Rests) (hrun : Run Step s es t) (ht : t.Rests) :
    t.backlog.length = s.backlog.length + es.countP Label.leavesWaiting := by
  have h := run_backlog hrun
  rw [hs.expected, ht.expected] at h
  omega

theorem left_waiting_twoClients : ∃ s, Run Step (start .lt) twoClients s ∧ s.Rests ∧ s.backlog.length = 1 := by
  obtain ⟨s, hrun, hrest⟩ := twoClients_run
  exact ⟨s, hrun, hrest, left_waiting (start_rests .lt) hrun hrest⟩

end LtEt

end EdgeTriggered
