-- SUMMARY: The chat room client: its loop with the server and the user around it, what it passes on, and where it is stuck.
import LinuxLearning.Common.CString
import LinuxLearning.Common.Run

/-!
# The chat room client

The client shows what the server sends, and moves what the user types to the server through a
pipe of its own, with one `splice` into it and one out of it. Neither result is looked at. A
`splice` out of an empty pipe waits for somebody to write, and one into a full pipe for somebody
to read, which only the client would do.
-/

namespace Chatroom

open Transition

/-- Where the loop is: in `poll`, at the `recv`, with whether the user's input was reported too, at
    one of the two calls of `splice`, or behind the loop. -/
inductive ClientPhase where
  | poll
  | receive (typing : Bool)
  | spliceIn
  | spliceOut
  | left
deriving Repr, DecidableEq

structure ClientLoop where
  /-- All that the user has typed, and what of it has not been read. -/
  typed : List UInt8
  stdin : List UInt8
  ended : Bool
  pipe : List UInt8
  /-- What the socket has taken. -/
  sent : List UInt8
  /-- All that the server has sent, what of it has not been received, and what has. -/
  said : List UInt8
  inbox : List UInt8
  received : List UInt8
  hangUp : Bool
  printed : List (List UInt8)
  phase : ClientPhase
deriving Repr, DecidableEq

/-- What the user and the server do, and the calls of the client with what they come to: whether
    `poll` reports the user's input, what `recv` gives, and how much a `splice` moves. -/
inductive ClientLabel where
  | type (d : List UInt8)
  | endInput
  | say (d : List UInt8)
  | hangUp
  | poll (typing : Bool)
  | recv (d : Option (List UInt8))
  | spliceIn (k : Option Nat)
  | spliceOut (k : Option Nat)
deriving Repr, DecidableEq

/-- `BUFFER_SIZE` of the client. -/
def clientBufferSize : Nat := 64

/-- The length that is passed to `splice`. -/
def spliceSize : Nat := 32768

/-- The capacity of a pipe, in bytes. -/
def pipeSize : Nat := 65536

namespace ClientLoop

/-- The branch of standard input comes next, or `poll`. -/
def next (c : ClientLoop) (typing : Bool) : ClientLoop :=
  { c with phase := if typing then .spliceIn else .poll }

/-- `poll` has returned: `POLLRDHUP` ends the loop, and is looked at before `POLLIN`. -/
def afterPoll (c : ClientLoop) (typing : Bool) : ClientLoop :=
  if c.hangUp then { c with phase := .left }
  else if c.inbox ≠ [] then { c with phase := .receive typing }
  else c.next typing

/-- `read_buf` after `memset` and `recv` is printed up to its first NUL, also where `recv` fails, as
    a line of its own. -/
def receive (c : ClientLoop) (d : List UInt8) : ClientLoop :=
  { c with
    inbox := c.inbox.drop d.length
    received := c.received ++ d
    printed := c.printed ++
      [(d ++ List.replicate (clientBufferSize - d.length) 0).takeWhile (· ≠ 0) ++ CString.ascii "\n"] }

inductive Step : ClientLoop → ClientLabel → ClientLoop → Prop where
  | type {c : ClientLoop} (d : List UInt8) : c.ended = false →
      Step c (.type d) { c with typed := c.typed ++ d, stdin := c.stdin ++ d }
  | endInput (c : ClientLoop) : Step c .endInput { c with ended := true }
  | say {c : ClientLoop} (d : List UInt8) : c.hangUp = false →
      Step c (.say d) { c with said := c.said ++ d, inbox := c.inbox ++ d }
  | hangUp (c : ClientLoop) : Step c .hangUp { c with hangUp := true }
  | poll {c : ClientLoop} {typing : Bool} : c.phase = .poll → (typing = true → c.stdin ≠ [] ∨ c.ended = true) →
      (c.stdin ≠ [] → typing = true) → Step c (.poll typing) (c.afterPoll typing)
  | recv {c : ClientLoop} {typing : Bool} {d : List UInt8} : c.phase = .receive typing → d ≠ [] →
      d.length ≤ clientBufferSize - 1 → d <+: c.inbox → Step c (.recv (some d)) ((c.receive d).next typing)
  | recvFails {c : ClientLoop} {typing : Bool} : c.phase = .receive typing → c.hangUp = true →
      Step c (.recv none) ((c.receive []).next typing)
  | spliceIn {c : ClientLoop} {k : Nat} : c.phase = .spliceIn → 0 < k → k ≤ spliceSize → k ≤ c.stdin.length →
      c.pipe.length + k ≤ pipeSize →
      Step c (.spliceIn (some k))
        { c with stdin := c.stdin.drop k, pipe := c.pipe ++ c.stdin.take k, phase := .spliceOut }
  /-- At the end of the input, or where the descriptor cannot be spliced from, nothing is moved. -/
  | spliceInNone {c : ClientLoop} : c.phase = .spliceIn → c.pipe.length < pipeSize →
      Step c (.spliceIn none) { c with phase := .spliceOut }
  | spliceOut {c : ClientLoop} {k : Nat} : c.phase = .spliceOut → 0 < k → k ≤ spliceSize → k ≤ c.pipe.length →
      Step c (.spliceOut (some k)) { c with sent := c.sent ++ c.pipe.take k, pipe := c.pipe.drop k, phase := .poll }
  /-- `SIGPIPE`, once the server is gone. -/
  | spliceOutFails {c : ClientLoop} : c.phase = .spliceOut → c.pipe ≠ [] → c.hangUp = true →
      Step c (.spliceOut none) { c with phase := .left }

def start : ClientLoop where
  typed := []
  stdin := []
  ended := false
  pipe := []
  sent := []
  said := []
  inbox := []
  received := []
  hangUp := false
  printed := []
  phase := .poll

/-- Whatever the user and the server do, the client stays where it is. -/
def Stuck (c : ClientLoop) : Prop :=
  c.phase ≠ .left ∧ ∀ es d, Run Step c es d → d.phase = c.phase

variable {c d : ClientLoop} {e : ClientLabel} {es : List ClientLabel}

-- ---------------------------------------------------------------------------
-- What is passed on
-- ---------------------------------------------------------------------------

theorem afterPoll_phase (c : ClientLoop) (typing : Bool) : ∃ phase, c.afterPoll typing = { c with phase := phase } := by
  unfold afterPoll
  split
  · exact ⟨_, rfl⟩
  · split
    · exact ⟨_, rfl⟩
    · exact ⟨_, rfl⟩

/-- What was received stands on the screen, cut into lines. -/
def Shows (c : ClientLoop) : Prop :=
  ∃ ls : List (List UInt8), ls.flatten = c.received ∧ c.printed = ls.map (· ++ CString.ascii "\n")

/-- The input is in the socket, in the pipe or unread, and what the server sent is received, and
    printed, or waits. -/
structure Inv (c : ClientLoop) : Prop where
  input : c.sent ++ c.pipe ++ c.stdin = c.typed
  output : c.received ++ c.inbox = c.said
  printed : (∀ b ∈ c.said, b ≠ 0) → c.Shows
  room : c.pipe.length ≤ pipeSize

theorem start_inv : start.Inv :=
  ⟨rfl, rfl, fun _ => ⟨[], rfl, rfl⟩, Nat.zero_le _⟩

/-- The phase does not matter. -/
theorem Inv.goto (h : c.Inv) (phase : ClientPhase) : { c with phase := phase }.Inv :=
  ⟨h.input, h.output, h.printed, h.room⟩

theorem Inv.receive (h : c.Inv) {bs : List UInt8} (hbs : bs <+: c.inbox) : (c.receive bs).Inv where
  input := h.input
  output := by
    obtain ⟨rest, hrest⟩ := hbs
    show c.received ++ bs ++ c.inbox.drop bs.length = c.said
    rw [← hrest, List.drop_left, List.append_assoc, hrest, h.output]
  printed hnul := by
    have hplain : ∀ b ∈ bs, b ≠ 0 := by
      intro b hb
      exact hnul b (h.output ▸ List.mem_append_right _ (hbs.subset hb))
    obtain ⟨ls, hls, hprinted⟩ := h.printed hnul
    refine ⟨ls ++ [bs], ?_, ?_⟩
    · show (ls ++ [bs]).flatten = c.received ++ bs
      rw [List.flatten_append, hls, List.flatten_singleton]
    · show c.printed ++ [_] = (ls ++ [bs]).map _
      rw [CString.takeWhile_padded hplain, hprinted, List.map_append, List.map_singleton]
  room := h.room

theorem Inv.step (h : c.Inv) (hstep : Step c e d) : d.Inv := by
  cases hstep with
  | type bs _ =>
    refine ⟨?_, h.output, h.printed, h.room⟩
    show c.sent ++ c.pipe ++ (c.stdin ++ bs) = c.typed ++ bs
    rw [← List.append_assoc, h.input]
  | endInput => exact ⟨h.input, h.output, h.printed, h.room⟩
  | say bs _ =>
    refine ⟨h.input, ?_, fun hnul => h.printed fun b hb => hnul b (List.mem_append_left _ hb), h.room⟩
    show c.received ++ (c.inbox ++ bs) = c.said ++ bs
    rw [← List.append_assoc, h.output]
  | hangUp => exact ⟨h.input, h.output, h.printed, h.room⟩
  | @poll typing _ _ _ =>
    obtain ⟨phase, hphase⟩ := afterPoll_phase c typing
    rw [hphase]
    exact h.goto phase
  | recv _ _ _ hprefix => exact (h.receive hprefix).goto _
  | recvFails _ _ => exact (h.receive List.nil_prefix).goto _
  | @spliceIn k _ _ _ hk hroom =>
    refine ⟨?_, h.output, h.printed, ?_⟩
    · show c.sent ++ (c.pipe ++ c.stdin.take k) ++ c.stdin.drop k = c.typed
      rw [← List.append_assoc, List.append_assoc, List.take_append_drop, h.input]
    · show (c.pipe ++ c.stdin.take k).length ≤ pipeSize
      rw [List.length_append, List.length_take_of_le hk]
      exact hroom
  | spliceInNone _ _ => exact h.goto _
  | @spliceOut k _ _ _ _ =>
    refine ⟨?_, h.output, h.printed, ?_⟩
    · show c.sent ++ c.pipe.take k ++ c.pipe.drop k ++ c.stdin = c.typed
      rw [List.append_assoc c.sent, List.take_append_drop, h.input]
    · show (c.pipe.drop k).length ≤ pipeSize
      rw [List.length_drop]
      exact (Nat.sub_le ..).trans h.room
  | spliceOutFails _ _ _ => exact h.goto _

theorem run_inv (hrun : Run Step start es c) : c.Inv :=
  Run.invariant (fun _ _ _ h hstep => h.step hstep) hrun start_inv

/-- The client waits for itself: out of an empty pipe, or into a full one. -/
def Waits (c : ClientLoop) : Prop :=
  c.phase = .spliceOut ∧ c.pipe = [] ∨ c.phase = .spliceIn ∧ c.pipe.length = pipeSize

/-- Nobody else empties or fills the pipe. -/
theorem Waits.step (h : c.Waits) (hstep : Step c e d) : d.Waits ∧ d.phase = c.phase := by
  have hfull : pipeSize ≠ 0 := by decide
  cases hstep with
  | type _ _ => exact ⟨h, rfl⟩
  | endInput => exact ⟨h, rfl⟩
  | say _ _ => exact ⟨h, rfl⟩
  | hangUp => exact ⟨h, rfl⟩
  | poll hphase _ _ => simp [Waits, hphase] at h
  | recv hphase _ _ _ => simp [Waits, hphase] at h
  | recvFails hphase _ => simp [Waits, hphase] at h
  | spliceIn hphase hpos _ _ hroom =>
    simp only [Waits, hphase, reduceCtorEq, false_and, true_and, false_or] at h
    omega
  | spliceInNone hphase hroom =>
    simp only [Waits, hphase, reduceCtorEq, false_and, true_and, false_or] at h
    omega
  | spliceOut hphase hpos _ hk =>
    simp only [Waits, hphase, reduceCtorEq, false_and, true_and, or_false] at h
    simp only [h, List.length_nil] at hk
    omega
  | spliceOutFails hphase hpipe _ =>
    simp only [Waits, hphase, reduceCtorEq, false_and, true_and, or_false] at h
    exact absurd h hpipe

theorem Waits.stuck (h : c.Waits) : c.Stuck := by
  refine ⟨?_, fun es d hrun => ?_⟩
  · rcases h with ⟨hphase, -⟩ | ⟨hphase, -⟩
    · rw [hphase]
      decide
    · rw [hphase]
      decide
  · have hinv : d.Waits ∧ d.phase = c.phase := by
      refine Run.invariant (I := fun d => d.Waits ∧ d.phase = c.phase) (fun s e t hs hstep => ?_) hrun ⟨h, rfl⟩
      obtain ⟨ht, hphase⟩ := hs.1.step hstep
      exact ⟨ht, hphase.trans hs.2⟩
    exact hinv.2

/-- A stuck client stays stuck. -/
theorem Stuck.step (h : c.Stuck) (hstep : Step c e d) : d.phase = c.phase ∧ d.Stuck := by
  have hphase : d.phase = c.phase := h.2 _ _ (.cons hstep (.nil _))
  refine ⟨hphase, ?_, fun es d' hrun => ?_⟩
  · rw [hphase]
    exact h.1
  · exact (h.2 _ _ (.cons hstep hrun)).trans hphase.symm

/-- Anywhere else the client goes on, at the latest when the server hangs up. -/
theorem Inv.waits (h : c.Inv) (hstuck : c.Stuck) : c.Waits := by
  have hhungUp : Stuck { c with hangUp := true } := (hstuck.step (.hangUp c)).2
  cases hphase : c.phase with
  | left => exact absurd hphase hstuck.1
  | poll =>
    have hpoll : Step { c with hangUp := true } (.poll (decide (c.stdin ≠ [])))
        ({ c with hangUp := true }.afterPoll (decide (c.stdin ≠ []))) :=
      .poll hphase (fun htyping => .inl (of_decide_eq_true htyping)) (fun hne => decide_eq_true hne)
    have hsame := (hhungUp.step hpoll).1.trans hphase
    cases hsame
  | receive typing =>
    have hrecv : Step { c with hangUp := true } (.recv none) (({ c with hangUp := true }.receive []).next typing) :=
      .recvFails hphase rfl
    have hsame := (hhungUp.step hrecv).1.trans hphase
    cases typing <;> cases hsame
  | spliceIn =>
    refine .inr ⟨hphase, Nat.le_antisymm h.room (Nat.le_of_not_lt fun hroom => ?_)⟩
    have hsame := (hstuck.step (.spliceInNone hphase hroom)).1.trans hphase
    cases hsame
  | spliceOut =>
    refine .inl ⟨hphase, by_contra fun hpipe => ?_⟩
    have hsome : Step c (.spliceOut (some 1))
        { c with sent := c.sent ++ c.pipe.take 1, pipe := c.pipe.drop 1, phase := .poll } :=
      .spliceOut hphase Nat.one_pos (by decide) (List.length_pos_iff.mpr hpipe)
    have hsame := (hstuck.step hsome).1.trans hphase
    cases hsame

/-- A client is stuck exactly if it waits for itself. -/
theorem stuck_iff_waits (hrun : Run Step start es c) : c.Stuck ↔ c.Waits :=
  ⟨(run_inv hrun).waits, Waits.stuck⟩

/-- The socket takes all that is in the pipe. -/
def Whole (c : ClientLoop) (e : ClientLabel) : Prop :=
  ∀ k, e = .spliceOut (some k) → k = c.pipe.length

/-- Between the two calls of `splice` there is something in the pipe, and elsewhere nothing. -/
structure Moves (c : ClientLoop) : Prop where
  filled : c.phase = .spliceOut → c.pipe ≠ []
  empty : c.phase ≠ .spliceOut → c.phase ≠ .left → c.pipe = []

theorem Moves.empty_spliceIn (h : c.Moves) (hphase : c.phase = .spliceIn) : c.pipe = [] := by
  refine h.empty ?_ ?_
  · rw [hphase]
    decide
  · rw [hphase]
    decide

theorem Moves.not_waits (h : c.Moves) : ¬ c.Waits := by
  rintro (⟨hphase, hpipe⟩ | ⟨hphase, hfull⟩)
  · exact h.filled hphase hpipe
  · rw [h.empty_spliceIn hphase] at hfull
    cases hfull

/-- The branch of standard input is not in the middle of its two calls. -/
theorem Moves.next (h : c.Moves) (hphase : c.phase ≠ .spliceOut) (hleft : c.phase ≠ .left) (typing : Bool) :
    (c.next typing).Moves where
  filled hnext := by cases typing <;> cases hnext
  empty _ _ := h.empty hphase hleft

theorem Moves.receive (h : c.Moves) {typing : Bool} (hphase : c.phase = .receive typing) (bs : List UInt8) :
    ((c.receive bs).next typing).Moves := by
  have hmoves : (c.receive bs).Moves := ⟨h.filled, h.empty⟩
  have hreceive : (c.receive bs).phase = .receive typing := hphase
  refine hmoves.next ?_ ?_ typing
  · rw [hreceive]
    exact fun hout => (by cases hout)
  · rw [hreceive]
    exact fun hleft => (by cases hleft)

theorem Moves.afterPoll (h : c.Moves) (hphase : c.phase = .poll) (typing : Bool) : (c.afterPoll typing).Moves := by
  have hout : c.phase ≠ .spliceOut := by
    rw [hphase]
    decide
  have hleft : c.phase ≠ .left := by
    rw [hphase]
    decide
  unfold ClientLoop.afterPoll
  split
  · exact ⟨fun hnext => (by cases hnext), fun _ hnext => absurd rfl hnext⟩
  · split
    · exact ⟨fun hnext => (by cases hnext), fun _ _ => h.empty hout hleft⟩
    · exact h.next hout hleft typing

theorem Moves.step (h : c.Moves) (hstep : Step c e d) (hwhole : c.Whole e) :
    if e = .spliceIn none then d.Waits else d.Moves := by
  cases hstep with
  | type _ _ => exact ⟨h.filled, h.empty⟩
  | endInput => exact ⟨h.filled, h.empty⟩
  | say _ _ => exact ⟨h.filled, h.empty⟩
  | hangUp => exact ⟨h.filled, h.empty⟩
  | poll hphase _ _ => exact h.afterPoll hphase _
  | recv hphase _ _ _ => exact h.receive hphase _
  | recvFails hphase _ => exact h.receive hphase []
  | @spliceIn k _ hpos _ hk _ =>
    refine ⟨fun _ hnil => ?_, fun hphase => absurd rfl hphase⟩
    have hlen := congrArg List.length (List.append_eq_nil_iff.mp hnil).2
    rw [List.length_take_of_le hk] at hlen
    exact absurd hlen hpos.ne'
  | spliceInNone hphase _ =>
    exact .inl ⟨rfl, h.empty_spliceIn hphase⟩
  | @spliceOut k _ _ _ _ =>
    refine ⟨fun hphase => (by cases hphase), fun _ _ => ?_⟩
    show c.pipe.drop k = []
    rw [hwhole k rfl, List.drop_length]
  | spliceOutFails _ _ _ => exact ⟨fun hphase => (by cases hphase), fun _ hleft => absurd rfl hleft⟩

/-- As long as the socket takes what it is given, the client is stuck exactly if the first of the
    two calls has moved nothing: the user has ended the input, say. -/
theorem stuck_iff (hrun : Run (fun c e d => Step c e d ∧ c.Whole e) start es c) :
    c.Stuck ↔ .spliceIn none ∈ es := by
  have hhistory : if .spliceIn none ∈ es then c.Waits else c.Moves := by
    refine Run.history (I := fun es c => if .spliceIn none ∈ es then c.Waits else c.Moves)
      (fun es s e t hs hstep => ?_) hrun ?_
    · by_cases hbefore : ClientLabel.spliceIn none ∈ es
      · rw [if_pos (List.mem_append_left _ hbefore)]
        rw [if_pos hbefore] at hs
        exact (hs.step hstep.1).1
      · rw [if_neg hbefore] at hs
        have hnext := hs.step hstep.1 hstep.2
        by_cases hlast : e = .spliceIn none
        · rw [if_pos hlast] at hnext
          rwa [if_pos (List.mem_append_right _ (List.mem_singleton.mpr hlast.symm))]
        · rw [if_neg hlast] at hnext
          rwa [if_neg (by simp [hbefore, Ne.symm hlast])]
    · exact ⟨fun hphase => (by cases hphase), fun _ _ => rfl⟩
  rw [stuck_iff_waits hrun.of_and]
  by_cases hnone : ClientLabel.spliceIn none ∈ es
  · rw [if_pos hnone] at hhistory
    exact iff_of_true hhistory hnone
  · rw [if_neg hnone] at hhistory
    exact iff_of_false hhistory.not_waits hnone

/-- The user types something, and ends the input. -/
def goodbye : List ClientLabel :=
  [.say [72, 105], .type [98, 121, 101], .poll true, .recv (some [72, 105]), .spliceIn (some 3), .spliceOut (some 3),
    .endInput, .poll true, .spliceIn none]

theorem goodbye_run : ∃ c, Run (fun c e d => Step c e d ∧ c.Whole e) start goodbye c := by
  have hbytes : ([72, 105] : List UInt8) ≠ [] := by decide
  refine ⟨_, .cons ⟨.say _ rfl, ?_⟩ (.cons ⟨.type _ rfl, ?_⟩
    (.cons ⟨.poll rfl (fun _ => .inl (by decide)) (fun _ => rfl), ?_⟩
    (.cons ⟨.recv rfl hbytes (by decide) (List.prefix_refl _), ?_⟩
    (.cons ⟨.spliceIn rfl (by decide) (by decide) (by decide) (by decide), ?_⟩
    (.cons ⟨.spliceOut rfl (by decide) (by decide) (by decide), ?_⟩ (.cons ⟨.endInput _, ?_⟩
    (.cons ⟨.poll rfl (fun _ => .inr rfl) (fun _ => rfl), ?_⟩
    (.cons ⟨.spliceInNone rfl (by decide), ?_⟩ (.nil _)))))))))⟩
  all_goals
    intro k hk
    cases hk
  rfl

theorem stuck_iff_goodbye : ∃ c, Run (fun c e d => Step c e d ∧ c.Whole e) start goodbye c ∧ c.Stuck := by
  obtain ⟨c, hrun⟩ := goodbye_run
  exact ⟨c, hrun, (stuck_iff hrun).mpr (by decide)⟩

end ClientLoop

end Chatroom
