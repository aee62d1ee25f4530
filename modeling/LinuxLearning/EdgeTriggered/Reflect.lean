-- SUMMARY: The reflection server: its TCP connections and its UDP socket over whole runs, and exactly when it echoes what it gets.
import LinuxLearning.EdgeTriggered.RecvLoop
import LinuxLearning.Common.Run
import Mathlib.Logic.Function.Basic

/-!
# The reflection server

The main loop takes events one by one: it accepts a connection, receives on one until there
is nothing left, or answers one datagram. What `send` took of a buffer is kept with the
connection, and the UDP socket keeps the datagrams that nobody has read.
-/

namespace EdgeTriggered

open Transition

/-- A piece received on a connection, and one passed to `send`, with how much of it was taken. -/
inductive Io where
  | received (d : List UInt8)
  | sent (d : List UInt8) (taken : Nat)

def received (log : List Io) : List UInt8 :=
  log.flatMap fun
    | .received d => d
    | .sent _ _ => []

/-- The bytes that the socket has accepted for sending. -/
def accepted (log : List Io) : List UInt8 :=
  log.flatMap fun
    | .received _ => []
    | .sent d taken => d.take taken

/-- Where the main loop is: between two events, or in the receive loop of a socket. -/
inductive Phase where
  | wait
  | receive (sockfd : Int)

structure Server where
  phase : Phase
  /-- What has happened on each open connection since it was accepted. -/
  conns : Int → Option (List Io)
  /-- The datagrams that the UDP socket holds. -/
  queue : List (List UInt8)
  /-- Datagrams have come since `epoll_wait` reported the UDP socket. -/
  edge : Bool
  /-- The UDP socket is reported and has not been read since. -/
  reported : Bool
  /-- The datagrams sent. -/
  answered : List (List UInt8)

/-- What happens: a datagram comes, `epoll_wait` reports the UDP socket, or the main loop takes
    a step. `taken` is how much `send` takes, `ok` whether `sendto` sends. -/
inductive Event where
  | arrive (d : List UInt8)
  | report
  | accept (connfd : Option Int)
  | ready (sockfd : Int)
  | recv (r : Recv) (taken : Nat)
  | recvfrom (ok : Bool)
  | other (sockfd : Int)

namespace Server

-- ---------------------------------------------------------------------------
-- The steps
-- ---------------------------------------------------------------------------

def note (s : Server) (sockfd : Int) (io : Io) : Server :=
  { s with conns := Function.update s.conns sockfd ((s.conns sockfd).map (· ++ [io])) }

/-- What a call in the receive loop does. -/
def perform (sockfd : Int) (r : Recv) (taken : Nat) (s : Server) : Op → Server
  | .recv =>
    match r with
    | .data d => s.note sockfd (.received d)
    | _ => s
  | .send d => s.note sockfd (.sent d taken)
  | .close => { s with conns := Function.update s.conns sockfd none }
  | .printReadLater | .printGot _ _ => s

/-- An iteration of the receive loop. -/
def recv (s : Server) (sockfd : Int) (r : Recv) (taken : Nat) : Server :=
  let (ops, goesOn) := reflect r
  { ops.foldl (perform sockfd r taken) s with phase := if goesOn then .receive sockfd else .wait }

/-- The branch of the UDP socket. `recvfrom` cuts a datagram that is too long, and fails where
    there is none; the answer is as long as the buffer. -/
def recvfrom (s : Server) (ok : Bool) : Server :=
  match s.queue with
  | [] => { s with reported := false }
  | d :: queue =>
    let ret := (d.take (udpBufferSize - 1)).length
    let buf := filled udpBufferSize (d.take (udpBufferSize - 1))
    let answer := if 0 < ret ∧ ok then [buf.take (udpBufferSize - 1)] else []
    { s with queue := queue, reported := false, answered := s.answered ++ answer }

/-- `recv` gives at most `TCP_BUFFER_SIZE - 1` bytes, `send` takes at most what it is given,
    and a closed descriptor gives an error. -/
def Allows (s : Server) (sockfd : Int) (r : Recv) (taken : Nat) : Prop :=
  match r with
  | .data d => s.conns sockfd ≠ none ∧ d ≠ [] ∧ d.length < tcpBufferSize ∧ taken ≤ d.length
  | .again | .eof => s.conns sockfd ≠ none
  | .error => True

inductive Step : Server → Event → Server → Prop where
  | arrive (s : Server) (d : List UInt8) : Step s (.arrive d) { s with queue := s.queue ++ [d], edge := true }
  | report {s : Server} : s.edge = true → s.reported = false →
      Step s .report { s with edge := false, reported := true }
  | accept {s : Server} {connfd : Int} : s.phase = .wait → s.conns connfd = none →
      Step s (.accept (some connfd)) { s with conns := Function.update s.conns connfd (some []) }
  | acceptFails {s : Server} : s.phase = .wait → Step s (.accept none) s
  | ready {s : Server} (sockfd : Int) : s.phase = .wait → Step s (.ready sockfd) { s with phase := .receive sockfd }
  | recv {s : Server} {sockfd : Int} {r : Recv} {taken : Nat} : s.phase = .receive sockfd →
      s.Allows sockfd r taken → Step s (.recv r taken) (s.recv sockfd r taken)
  | recvfrom {s : Server} (ok : Bool) : s.phase = .wait → s.reported = true →
      Step s (.recvfrom ok) (s.recvfrom ok)
  | other {s : Server} (sockfd : Int) : s.phase = .wait → Step s (.other sockfd) s

def start : Server where
  phase := .wait
  conns := fun _ => none
  queue := []
  edge := false
  reported := false
  answered := []

-- ---------------------------------------------------------------------------
-- Echoing
-- ---------------------------------------------------------------------------

/-- A datagram that is to be answered. -/
def Answerable (d : List UInt8) : Prop :=
  0 < d.length ∧ d.length < udpBufferSize

/-- The main loop waits, and there is no datagram to be reported. -/
def Rests (s : Server) : Prop :=
  s.phase = .wait ∧ s.edge = false ∧ s.reported = false

/-- What the server is to do: when a connection has nothing left to read, all that was received
    is accepted for sending; a datagram is answered by one like it; and none is left when the
    server rests. -/
structure Echoes (s : Server) (e : Event) (t : Server) : Prop where
  tcp : ∀ sockfd taken log, s.phase = .receive sockfd → e = .recv .again taken → t.conns sockfd = some log →
    accepted log = received log
  udp : ∀ ok d queue, e = .recvfrom ok → s.queue = d :: queue → Answerable d → t.answered = s.answered ++ [d]
  rest : t.Rests → ∀ d ∈ t.queue, ¬ Answerable d

/-- A connection has nothing left to read after `send` took less than it was given; a datagram
    is read that `sendto` does not send or that does not fill the buffer; or one is read while
    another waits and no more have come. -/
def Loses (s : Server) : Event → Prop
  | .recv .again _ => ∃ sockfd log d taken, s.phase = .receive sockfd ∧ s.conns sockfd = some log ∧
      .sent d taken ∈ log ∧ taken < d.length
  | .recvfrom ok => ∃ d queue, s.queue = d :: queue ∧
      (Answerable d ∧ (d.length < udpBufferSize - 1 ∨ ok = false) ∨ s.edge = false ∧ ∃ d ∈ queue, Answerable d)
  | _ => False

end Server

-- ---------------------------------------------------------------------------
-- Connections
-- ---------------------------------------------------------------------------

variable {log : List Io} {d : List UInt8} {taken : Nat}

theorem received_snoc : received (log ++ [.received d, .sent d taken]) = received log ++ d := by
  simp [received]

theorem accepted_snoc : accepted (log ++ [.received d, .sent d taken]) = accepted log ++ d.take taken := by
  simp [accepted]

/-- Each piece received has been passed to `send` at once, and `send` took no more than that. -/
inductive Echoed : List Io → Prop where
  | nil : Echoed []
  | snoc {log : List Io} {d : List UInt8} {taken : Nat} : Echoed log → taken ≤ d.length →
      Echoed (log ++ [.received d, .sent d taken])

theorem Echoed.length_le (h : Echoed log) : (accepted log).length ≤ (received log).length := by
  induction h with
  | nil => exact Nat.le_refl 0
  | @snoc log d taken _ _ ih =>
    rw [accepted_snoc, received_snoc, List.length_append, List.length_append, List.length_take]
    omega

/-- What is accepted is what was received exactly if `send` took everything every time. -/
theorem Echoed.accepted_eq_iff (h : Echoed log) :
    accepted log = received log ↔ ∀ d taken, .sent d taken ∈ log → d.length ≤ taken := by
  induction h with
  | nil => exact ⟨fun _ _ _ => nofun, fun _ => rfl⟩
  | @snoc log d taken hlog hle ih =>
    rw [accepted_snoc, received_snoc]
    constructor
    · intro heq
      -- neither part is longer than the one it is compared with
      have hlen := congrArg List.length heq
      have hshort := hlog.length_le
      rw [List.length_append, List.length_append, List.length_take] at hlen
      obtain ⟨hsame, -⟩ := List.append_inj heq (by omega)
      intro d' taken' hmem
      rcases List.mem_append.mp hmem with hmem | hmem
      · exact ih.mp hsame d' taken' hmem
      · obtain ⟨rfl, rfl⟩ : d' = d ∧ taken' = taken := by simpa using hmem
        omega
    · intro hall
      have hlast : d.length ≤ taken := hall d taken (by simp)
      rw [ih.mpr fun d' taken' hmem => hall d' taken' (List.mem_append_left _ hmem), List.take_of_length_le hlast]

namespace Server

variable {s t : Server} {e : Event} {sockfd : Int} {r : Recv} {ok : Bool} {queue : List (List UInt8)}

/-- `send` is passed what was received. -/
theorem recv_data (s : Server) (sockfd : Int) (d : List UInt8) (taken : Nat) :
    s.recv sockfd (.data d) taken = { s with
      conns := Function.update s.conns sockfd ((s.conns sockfd).map (· ++ [.received d, .sent d taken]))
      phase := .receive sockfd } := by
  have hbuf : (filled tcpBufferSize d).take d.length = d := by simp [filled]
  simp only [recv, reflect, iteration, List.foldl, perform, note, hbuf, Function.update_self, Function.update_idem,
    Option.map_map, Function.comp_def, List.append_assoc, List.singleton_append, if_true]

/-- The answer to a datagram is it and zeros up to the end of the buffer. -/
theorem recvfrom_answer (hd : Answerable d) (hq : s.queue = d :: queue) (ok : Bool) :
    s.recvfrom ok = { s with
      queue := queue
      reported := false
      answered := s.answered ++ if ok then [d ++ List.replicate (udpBufferSize - 1 - d.length) 0] else [] } := by
  obtain ⟨hpos, hlt⟩ := hd
  have htake : d.take (udpBufferSize - 1) = d := List.take_of_length_le (by omega)
  have hbuf : (filled udpBufferSize d).take (udpBufferSize - 1) =
      d ++ List.replicate (udpBufferSize - 1 - d.length) 0 := by
    rw [filled, List.take_append, htake, List.take_replicate]
    congr 2
    omega
  simp only [recvfrom, hq, htake, hbuf, hpos, true_and]

-- ---------------------------------------------------------------------------
-- Runs
-- ---------------------------------------------------------------------------

structure Inv (s : Server) : Prop where
  logs : ∀ sockfd log, s.conns sockfd = some log → Echoed log
  queue : s.edge = false → s.reported = false → ∀ d ∈ s.queue, ¬ Answerable d

/-- A change to one connection keeps the others. -/
theorem Inv.update (hs : s.Inv) {conn : Option (List Io)} (hconn : ∀ log, conn = some log → Echoed log) :
    ∀ fd log, Function.update s.conns sockfd conn fd = some log → Echoed log := by
  intro fd log h
  by_cases hfd : fd = sockfd
  · subst hfd
    rw [Function.update_self] at h
    exact hconn log h
  · rw [Function.update_of_ne hfd] at h
    exact hs.logs fd log h

theorem Inv.recv (hs : s.Inv) (hallows : s.Allows sockfd r taken) : (s.recv sockfd r taken).Inv := by
  cases r with
  | data d =>
    obtain ⟨-, -, -, hle⟩ := hallows
    rw [recv_data]
    refine ⟨hs.update fun log h => ?_, hs.queue⟩
    obtain ⟨log, hlog, rfl⟩ := Option.map_eq_some_iff.mp h
    exact (hs.logs sockfd log hlog).snoc hle
  | again => exact ⟨hs.logs, hs.queue⟩
  | error => exact ⟨hs.update nofun, hs.queue⟩
  | eof => exact ⟨hs.update nofun, hs.queue⟩

/-- What the UDP branch leaves as it is, and the datagram it reads. -/
theorem recvfrom_frame (s : Server) (ok : Bool) :
    (s.recvfrom ok).phase = s.phase ∧ (s.recvfrom ok).conns = s.conns ∧ (s.recvfrom ok).edge = s.edge ∧
      (s.recvfrom ok).reported = false ∧ (s.recvfrom ok).queue = s.queue.tail := by
  cases hq : s.queue <;> simp [recvfrom, hq]

theorem Inv.recvfrom (hs : s.Inv) (hgood : ¬ s.Loses (.recvfrom ok)) : (s.recvfrom ok).Inv := by
  obtain ⟨-, hconns, hedge, -, hqueue⟩ := recvfrom_frame s ok
  constructor
  · rw [hconns]
    exact hs.logs
  · intro hend _ d hd hdatagram
    rw [hedge] at hend
    rw [hqueue] at hd
    cases hq : s.queue with
    | nil => rw [hq] at hd; cases hd
    | cons d' queue =>
      rw [hq] at hd
      exact hgood ⟨d', queue, hq, .inr ⟨hend, d, hd, hdatagram⟩⟩

theorem Inv.step (hs : s.Inv) (h : Step s e t) (hgood : ¬ s.Loses e) : t.Inv := by
  cases h with
  | arrive d => exact ⟨hs.logs, nofun⟩
  | report _ _ => exact ⟨hs.logs, fun _ => nofun⟩
  | accept _ _ => exact ⟨hs.update fun _ h => Option.some.inj h ▸ .nil, hs.queue⟩
  | acceptFails _ => exact hs
  | ready _ _ => exact ⟨hs.logs, hs.queue⟩
  | recv _ hallows => exact hs.recv hallows
  | recvfrom ok _ _ => exact hs.recvfrom hgood
  | other _ _ => exact hs

/-- A step that loses nothing echoes. -/
theorem Inv.echoes (hs : s.Inv) (h : Step s e t) (hgood : ¬ s.Loses e) : s.Echoes e t where
  tcp := by
    rintro sockfd taken log hphase rfl hlog
    cases h with
    | recv _ _ =>
      refine ((hs.logs sockfd log hlog).accepted_eq_iff).mpr fun d n hmem => ?_
      exact Nat.le_of_not_lt fun hlt => hgood ⟨sockfd, log, d, n, hphase, hlog, hmem, hlt⟩
  udp := by
    rintro ok d queue rfl hq hd
    cases h with
    | recvfrom _ _ _ =>
      have hfull : ¬ (d.length < udpBufferSize - 1 ∨ ok = false) := fun h => hgood ⟨d, queue, hq, .inl ⟨hd, h⟩⟩
      obtain ⟨hlen, hok⟩ := not_or.mp hfull
      obtain rfl : ok = true := by simpa using hok
      have hnone : udpBufferSize - 1 - d.length = 0 := by omega
      rw [recvfrom_answer hd hq, hnone]
      simp
  rest hrest := (hs.step h hgood).queue hrest.2.1 hrest.2.2

/-- A step that loses something does not. -/
theorem Inv.loses (hs : s.Inv) (h : Step s e t) (hbad : s.Loses e) : ¬ s.Echoes e t := by
  intro hecho
  cases h with
  | @recv sockfd r taken hphase _ =>
    cases r with
    | again =>
      obtain ⟨fd, log, d, n, hphase', hlog, hmem, hlt⟩ := hbad
      have hsame := hecho.tcp fd taken log hphase' rfl hlog
      have := ((hs.logs fd log hlog).accepted_eq_iff).mp hsame d n hmem
      omega
    | data _ => exact hbad
    | error => exact hbad
    | eof => exact hbad
  | recvfrom ok hphase _ =>
    obtain ⟨d, queue, hq, ⟨hd, hshort⟩ | ⟨hedge, d', hmem, hd'⟩⟩ := hbad
    · have hanswer := hecho.udp ok d queue rfl hq hd
      rw [recvfrom_answer hd hq] at hanswer
      have hone := List.append_cancel_left hanswer
      cases ok with
      | false => cases hone
      | true =>
        have hlen := congrArg List.length (List.cons.inj hone).1
        rw [List.length_append, List.length_replicate] at hlen
        have hshort := hshort.resolve_right nofun
        omega
    · obtain ⟨hp, -, he, hr, htail⟩ := recvfrom_frame s ok
      refine hecho.rest ⟨hp.trans hphase, he.trans hedge, hr⟩ d' ?_ hd'
      rw [htail, hq]
      exact hmem
  | _ => exact hbad

theorem start_inv : start.Inv :=
  ⟨nofun, fun _ _ => nofun⟩

/-- The server echoes in every step of a run exactly if no step loses anything. -/
theorem echo_iff (es : List Event) (t : Server) :
    Run (fun s e t => Step s e t ∧ ¬ s.Loses e) start es t ↔
      Run (fun s e t => Step s e t ∧ s.Echoes e t) start es t :=
  Run.congr (I := Inv) (fun _ _ _ hs h hgood => hs.step h hgood)
    (fun _ _ _ hs h => ⟨fun hgood => hs.echoes h hgood, fun hecho hbad => hs.loses h hbad hecho⟩) start_inv

/-- `send` takes one byte of two, and a datagram of one byte is answered. -/
theorem short_send_loses :
    (∃ t log, Run Step start [.accept (some 5), .ready 5, .recv (.data [104, 105]) 1, .recv .again 0] t ∧
      t.conns 5 = some log ∧ received log = [104, 105] ∧ accepted log = [104]) ∧
    ∃ t d, Run Step start [.arrive [33], .report, .recvfrom true] t ∧ t.answered = [d] ∧ d.length = 1023 := by
  constructor
  · refine ⟨_, _, .cons (.accept rfl rfl) (.cons (.ready 5 rfl) (.cons (.recv rfl ?_) (.cons (.recv rfl ?_) (.nil _)))),
      rfl, rfl, rfl⟩
    · exact ⟨by decide, by decide, by decide, by decide⟩
    · exact nofun
  · exact ⟨_, _, .cons (.arrive _ _) (.cons (.report rfl rfl) (.cons (.recvfrom true rfl rfl) (.nil _))), rfl, by simp [filled]; decide⟩

end Server

end EdgeTriggered
