-- SUMMARY: The chat room server: the poll array, the client records, one iteration of the for loop, and the server as a transition system.
import LinuxLearning.Common.Run
import LinuxLearning.Common.Segment
import Mathlib.Data.BitVec

/-!
# The chat room server

`Room` holds what `main` of `chatroom_server.cpp` works on, and `examine` is the body of
its `for` loop. `Chat` adds where the loop stands, and a history of what the server did:
which descriptors it examined in this pass, accepted and closed, and which messages went
out and should have.
-/

namespace Chatroom

open Transition Segment

def userLimit : Nat := 5
def bufferSize : Nat := 64
def fdLimit : Int := 65535

/-! ## Event masks -/

/-- A mask of `poll` events, which the source keeps in a `short`. -/
abbrev Mask := BitVec 16

def pollIn : Mask := .twoPow 16 0
def pollOut : Mask := .twoPow 16 2
def pollErr : Mask := .twoPow 16 3
def pollHup : Mask := .twoPow 16 4
def pollNval : Mask := .twoPow 16 5
def pollRdhup : Mask := .twoPow 16 13

/-- The condition `m & bit`. -/
def Mask.has (m bit : Mask) : Prop := m &&& bit ≠ 0

instance (m bit : Mask) : Decidable (m.has bit) := inferInstanceAs (Decidable (_ ≠ _))

/-- `poll` reports requested events, and the three that need no request. -/
def Reportable (events revents : Mask) : Prop :=
  revents &&& ~~~(events ||| pollErr ||| pollHup ||| pollNval) = 0

/-! ## The data of main -/

structure PollFd where
  fd : Int
  events : Mask
  revents : Mask

/-- `write_buf` points to the `buf` of a record, or is null. -/
structure ClientData where
  writeBuf : Option Int
  buf : List UInt8

/-- The C string in a buffer. -/
def ClientData.text (c : ClientData) : List UInt8 :=
  c.buf.takeWhile (· ≠ 0)

structure Room where
  listenfd : Int
  fds : Nat → PollFd
  users : Int → ClientData
  userCounter : Nat

/-- What `recv` returns: some bytes, 0, or an error with `EAGAIN` or without. -/
inductive Recv where
  | data (d : List UInt8)
  | eof
  | eagain
  | error

/-- What the system answers to the call of an iteration: `accept` a descriptor or an error. -/
structure Answers where
  accept : Option Int
  recv : Recv

/-- What an iteration does to its surroundings. -/
inductive Effect where
  | silent
  | joined (fd : Int)
  | refused (fd : Int)
  | left (fd : Int)
  | received (fd : Int) (d : List UInt8)
  | sent (fd : Int) (d : List UInt8)

namespace Room

/-! ## The body of the for loop -/

def setUser (r : Room) (fd : Int) (c : ClientData) : Room :=
  { r with users := Function.update r.users fd c }

/-- The slot behind the last one for a new client. -/
def addSlot (r : Room) (connfd : Int) : Room :=
  { r with
    userCounter := r.userCounter + 1
    fds := Function.update r.fds (r.userCounter + 1) ⟨connfd, pollIn ||| pollRdhup ||| pollErr, 0⟩ }

/-- The last client's record and slot take the place of those at slot `i`. -/
def removeSlot (r : Room) (i : Nat) : Room :=
  { r with
    users := Function.update r.users (r.fds i).fd (r.users (r.fds r.userCounter).fd)
    fds := Function.update r.fds i (r.fds r.userCounter)
    userCounter := r.userCounter - 1 }

/-- `buf` after `memset` and a `recv` of `d`. -/
def fill (r : Room) (fd : Int) (d : List UInt8) : Room :=
  r.setUser fd { r.users fd with buf := d ++ List.replicate (bufferSize - d.length) 0 }

/-- The inner loop over `j`: everybody but the sender is to write the sender's buffer. -/
def notify (r : Room) (connfd : Int) : Room :=
  { r with
    fds := fun j =>
      if 1 ≤ j ∧ j ≤ r.userCounter ∧ (r.fds j).fd ≠ connfd then
        { r.fds j with events := (r.fds j).events ||| ~~~pollIn ||| pollOut }
      else r.fds j
    users := fun fd =>
      if fd ≠ connfd ∧ fd ∈ segment (fun j => (r.fds j).fd) 1 (r.userCounter + 1) then
        { r.users fd with writeBuf := some connfd }
      else r.users fd }

/-- After `send`: the message is forgotten, and reading is asked for again. -/
def wrote (r : Room) (i : Nat) : Room :=
  { r with
    users := Function.update r.users (r.fds i).fd { r.users (r.fds i).fd with writeBuf := none }
    fds := Function.update r.fds i
      { r.fds i with events := (r.fds i).events ||| ~~~pollOut ||| pollIn } }

/-- One iteration at slot `i`: the room, the next slot, and what was done. A removal takes
    the loop variable back by one. -/
def examine (r : Room) (i : Nat) (a : Answers) : Room × Nat × Effect :=
  let p := r.fds i
  if p.fd = r.listenfd ∧ p.revents.has pollIn then
    match a.accept with
    | none => (r, i + 1, .silent)
    | some connfd =>
      if userLimit ≤ r.userCounter then (r, i + 1, .refused connfd)
      else (r.addSlot connfd, i + 1, .joined connfd)
  else if p.revents.has pollErr then (r, i + 1, .silent)
  else if p.revents.has pollRdhup then (r.removeSlot i, i, .left p.fd)
  else if p.revents.has pollIn then
    match a.recv with
    | .data d => ((r.fill p.fd d).notify p.fd, i + 1, .received p.fd d)
    | .eof | .eagain => (r.fill p.fd [], i + 1, .silent)
    | .error => ((r.fill p.fd []).removeSlot i, i, .left p.fd)
  else if p.revents.has pollOut then
    match (r.users p.fd).writeBuf with
    | none => (r, i + 1, .silent)
    | some y => (r.wrote i, i + 1, .sent p.fd (r.users y).text)
  else (r, i + 1, .silent)

/-! ## What an iteration can do -/

def Listens (r : Room) (i : Nat) : Prop :=
  (r.fds i).fd = r.listenfd ∧ (r.fds i).revents.has pollIn

def HangsUp (r : Room) (i : Nat) : Prop :=
  ¬ r.Listens i ∧ ¬ (r.fds i).revents.has pollErr ∧ (r.fds i).revents.has pollRdhup

def Reads (r : Room) (i : Nat) : Prop :=
  ¬ r.Listens i ∧ ¬ (r.fds i).revents.has pollErr ∧ ¬ (r.fds i).revents.has pollRdhup ∧
    (r.fds i).revents.has pollIn

/-- The branches of the iteration, each with the condition it is taken on. -/
inductive Outcome (r : Room) (i : Nat) (a : Answers) : Room × Nat × Effect → Prop where
  | silent : ¬ r.HangsUp i → ¬ r.Reads i → Outcome r i a (r, i + 1, .silent)
  | refused {connfd} : r.Listens i → a.accept = some connfd → userLimit ≤ r.userCounter →
      Outcome r i a (r, i + 1, .refused connfd)
  | joined {connfd} : r.Listens i → a.accept = some connfd → r.userCounter < userLimit →
      Outcome r i a (r.addSlot connfd, i + 1, .joined connfd)
  | hungUp : r.HangsUp i → Outcome r i a (r.removeSlot i, i, .left (r.fds i).fd)
  | received {d} : r.Reads i → a.recv = .data d →
      Outcome r i a ((r.fill (r.fds i).fd d).notify (r.fds i).fd, i + 1, .received (r.fds i).fd d)
  | emptied : r.Reads i → a.recv = .eof ∨ a.recv = .eagain →
      Outcome r i a (r.fill (r.fds i).fd [], i + 1, .silent)
  | failed : r.Reads i → a.recv = .error →
      Outcome r i a ((r.fill (r.fds i).fd []).removeSlot i, i, .left (r.fds i).fd)
  | sent {y} : ¬ r.HangsUp i → ¬ r.Reads i → (r.fds i).revents.has pollOut →
      ¬ r.Listens i → (r.users (r.fds i).fd).writeBuf = some y →
      Outcome r i a (r.wrote i, i + 1, .sent (r.fds i).fd (r.users y).text)

theorem examine_outcome (r : Room) (i : Nat) (a : Answers) : r.Outcome i a (r.examine i a) := by
  unfold examine
  dsimp only
  by_cases hlisten : (r.fds i).fd = r.listenfd ∧ (r.fds i).revents.has pollIn
  · have hh : ¬ r.HangsUp i := fun h => h.1 hlisten
    have hr : ¬ r.Reads i := fun h => h.1 hlisten
    rw [if_pos hlisten]
    cases ha : a.accept with
    | none => exact .silent hh hr
    | some connfd =>
      dsimp only
      by_cases hlimit : userLimit ≤ r.userCounter
      · rw [if_pos hlimit]
        exact .refused hlisten ha hlimit
      · rw [if_neg hlimit]
        exact .joined hlisten ha (not_le.mp hlimit)
  · rw [if_neg hlisten]
    by_cases herr : (r.fds i).revents.has pollErr
    · rw [if_pos herr]
      exact .silent (fun h => h.2.1 herr) (fun h => h.2.1 herr)
    rw [if_neg herr]
    by_cases hup : (r.fds i).revents.has pollRdhup
    · rw [if_pos hup]
      exact .hungUp ⟨hlisten, herr, hup⟩
    rw [if_neg hup]
    have hh : ¬ r.HangsUp i := fun h => hup h.2.2
    by_cases hin : (r.fds i).revents.has pollIn
    · rw [if_pos hin]
      have hr : r.Reads i := ⟨hlisten, herr, hup, hin⟩
      cases ha : a.recv with
      | data d => exact .received hr ha
      | eof => exact .emptied hr (.inl ha)
      | eagain => exact .emptied hr (.inr ha)
      | error => exact .failed hr ha
    rw [if_neg hin]
    have hr : ¬ r.Reads i := fun h => hin h.2.2.2
    by_cases hout : (r.fds i).revents.has pollOut
    · rw [if_pos hout]
      cases hw : (r.users (r.fds i).fd).writeBuf with
      | none => exact .silent hh hr
      | some y => exact .sent hh hr hout hlisten hw
    · rw [if_neg hout]
      exact .silent hh hr

/-- The descriptors in the slots from `i` on. -/
def slotsFrom (r : Room) (i : Nat) : List Int :=
  segment (fun k => (r.fds k).fd) i (r.userCounter + 1)

def clients (r : Room) : List Int := r.slotsFrom 1

end Room

/-! ## The server -/

/-- The room, where the `for` loop stands (`none` in `poll`), and the history: the clients
    when `poll` returned and the descriptors examined since, how often each descriptor was
    accepted and closed, and for each client the messages of others since it joined and
    what was sent to it. -/
structure Chat where
  room : Room
  scan : Option Nat
  present : List Int
  seen : List Int
  accepts : Int → Nat
  closes : Int → Nat
  due : Int → List (List UInt8)
  sent : Int → List (List UInt8)

namespace Chat

/-- The server in its first `poll`. The records and the other slots are what memory held. -/
def start (listenfd : Int) (users : Int → ClientData) (revents : Nat → Mask) : Chat where
  room :=
    { listenfd := listenfd
      fds := fun k => if k = 0 then ⟨listenfd, pollIn ||| pollErr, 0⟩ else ⟨-1, 0, revents k⟩
      users := users
      userCounter := 0 }
  scan := none
  present := []
  seen := []
  accepts _ := 0
  closes _ := 0
  due _ := []
  sent _ := []

/-- The history after an iteration. A message is due to everybody else in the room. -/
def record (s : Chat) : Effect → Chat
  | .silent => s
  | .joined fd =>
    { s with
      accepts := Function.update s.accepts fd (s.accepts fd + 1)
      due := Function.update s.due fd []
      sent := Function.update s.sent fd [] }
  | .refused fd =>
    { s with
      accepts := Function.update s.accepts fd (s.accepts fd + 1)
      closes := Function.update s.closes fd (s.closes fd + 1) }
  | .left fd => { s with closes := Function.update s.closes fd (s.closes fd + 1) }
  | .received fd d =>
    { s with due := fun c => if c ≠ fd ∧ c ∈ s.room.clients then s.due c ++ [d] else s.due c }
  | .sent fd d => { s with sent := Function.update s.sent fd (s.sent fd ++ [d]) }

/-- The iteration at slot `i`. -/
def iterate (s : Chat) (i : Nat) (a : Answers) : Chat :=
  let (r, j, e) := s.room.examine i a
  { s.record e with room := r, scan := some j, seen := s.seen ++ [(s.room.fds i).fd] }

/-- The return of `poll`. -/
def polled (s : Chat) (revents : Nat → Mask) : Chat :=
  { s with
    room := { s.room with
      fds := fun k =>
        if k ≤ s.room.userCounter then { s.room.fds k with revents := revents k } else s.room.fds k }
    scan := some 0
    present := s.room.clients
    seen := [] }

/-- `accept` returns a descriptor that is not open, and `recv` no more than was asked for. -/
structure Possible (s : Chat) (a : Answers) : Prop where
  accept : ∀ fd, a.accept = some fd →
    0 ≤ fd ∧ fd < fdLimit ∧ fd ≠ s.room.listenfd ∧ s.accepts fd = s.closes fd
  recv : ∀ d, a.recv = .data d → d ≠ [] ∧ d.length < bufferSize

inductive Action where
  | poll (revents : Nat → Mask)
  | iterate (a : Answers)
  | finish

inductive Step : Chat → Action → Chat → Prop where
  | poll {s revents} : s.scan = none →
      (∀ k, k < s.room.userCounter + 1 → Reportable (s.room.fds k).events (revents k)) →
      Step s (.poll revents) (s.polled revents)
  | iterate {s i a} : s.scan = some i → i < s.room.userCounter + 1 → s.Possible a →
      Step s (.iterate a) (s.iterate i a)
  | finish {s i} : s.scan = some i → ¬ i < s.room.userCounter + 1 → Step s .finish { s with scan := none }

/-! ## Executing a step -/

instance (events revents : Mask) : Decidable (Reportable events revents) :=
  inferInstanceAs (Decidable (_ = _))

theorem possible_iff {s : Chat} {a : Answers} : s.Possible a ↔
    (match a.accept with
      | none => True
      | some fd => 0 ≤ fd ∧ fd < fdLimit ∧ fd ≠ s.room.listenfd ∧ s.accepts fd = s.closes fd) ∧
    (match a.recv with
      | .data d => d ≠ [] ∧ d.length < bufferSize
      | _ => True) := by
  obtain ⟨accept, recv⟩ := a
  constructor
  · intro h
    exact ⟨by cases accept with | none => trivial | some fd => exact h.accept fd rfl,
      by cases recv with | data d => exact h.recv d rfl | _ => trivial⟩
  · rintro ⟨ha, hr⟩
    exact ⟨fun fd h => by cases h; exact ha, fun d h => by cases h; exact hr⟩

instance (s : Chat) (a : Answers) : Decidable (s.Possible a) :=
  @decidable_of_iff' _ _ possible_iff
    (@instDecidableAnd _ _ (match a.accept with
      | none => inferInstanceAs (Decidable True)
      | some _ => inferInstanceAs (Decidable (_ ∧ _)))
      (match a.recv with
      | .data _ => inferInstanceAs (Decidable (_ ∧ _))
      | .eof => inferInstanceAs (Decidable True)
      | .eagain => inferInstanceAs (Decidable True)
      | .error => inferInstanceAs (Decidable True)))

/-- The step of an action, if the server can take it. -/
def step (s : Chat) : Action → Option Chat
  | .poll revents =>
    if s.scan = none ∧ ∀ k, k < s.room.userCounter + 1 → Reportable (s.room.fds k).events (revents k) then
      some (s.polled revents)
    else none
  | .iterate a =>
    match s.scan with
    | none => none
    | some i => if i < s.room.userCounter + 1 ∧ s.Possible a then some (s.iterate i a) else none
  | .finish =>
    match s.scan with
    | none => none
    | some i => if i < s.room.userCounter + 1 then none else some { s with scan := none }

theorem step_sound {s t : Chat} {act : Action} (h : s.step act = some t) : Step s act t := by
  cases act with
  | poll revents =>
    rw [step] at h
    split at h
    · next hp =>
      cases h
      exact .poll hp.1 hp.2
    · cases h
  | iterate a =>
    rw [step] at h
    split at h
    · cases h
    · next i hscan =>
      split at h
      · next hp =>
        cases h
        exact .iterate hscan hp.1 hp.2
      · cases h
  | finish =>
    rw [step] at h
    split at h
    · cases h
    · next i hscan =>
      split at h
      · cases h
      · next hp =>
        cases h
        exact .finish hscan hp

end Chat

end Chatroom
