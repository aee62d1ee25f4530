-- SUMMARY: When the poll masks of the chat room follow the pending output of the clients: in the runs that broadcast nothing and accept no stale record.
import LinuxLearning.Chatroom.Slots

/-!
# Masks and pending output

The loops add the complement of a bit to the mask where the bit is to be taken out, which
sets all the others and leaves it. So a client keeps the mask it came with until something
is broadcast to it, and from then on it is polled for everything.
-/

namespace Chatroom

open Transition Segment

namespace Room

variable {r : Room} {i k : Nat} {x connfd : Int} {d : List UInt8}

/-- Each client is polled for writing if it has output and for reading if not, and always for
    a hang-up and for errors. -/
def Masked (r : Room) : Prop :=
  ∀ k, 1 ≤ k → k < r.userCounter + 1 →
    ((r.fds k).events.has pollOut ↔ (r.users (r.fds k).fd).writeBuf ≠ none) ∧
    ((r.fds k).events.has pollIn ↔ (r.users (r.fds k).fd).writeBuf = none) ∧
    (r.fds k).events.has pollRdhup ∧ (r.fds k).events.has pollErr

/-- The mask of a new client. -/
def newMask : Mask := pollIn ||| pollRdhup ||| pollErr

/-- Each client has the mask it came with, and no output. -/
def Quiet (r : Room) : Prop :=
  ∀ k, 1 ≤ k → k < r.userCounter + 1 →
    (r.fds k).events = newMask ∧ (r.users (r.fds k).fd).writeBuf = none

theorem Quiet.masked (h : r.Quiet) : r.Masked := by
  intro k hk hlt
  obtain ⟨hmask, hbuf⟩ := h k hk hlt
  rw [hmask, hbuf]
  exact ⟨iff_of_false (by decide) (by simp), iff_of_true (by decide) rfl, by decide, by decide⟩

theorem Quiet.fill (h : r.Quiet) (x : Int) (d : List UInt8) : (r.fill x d).Quiet := by
  intro k hk hlt
  obtain ⟨hmask, hbuf⟩ := h k hk hlt
  refine ⟨hmask, ?_⟩
  by_cases hx : (r.fds k).fd = x
  · subst hx
    simpa [Room.fill, setUser] using hbuf
  · simpa [Room.fill, setUser, hx] using hbuf

/-- The slot that the last client moves into is as quiet as its own. -/
theorem Quiet.removeSlot (h : r.Quiet) (hi : 1 ≤ i) (hn : i < r.userCounter + 1) : (r.removeSlot i).Quiet := by
  obtain ⟨hlast, hlastbuf⟩ := h r.userCounter (by omega) (Nat.lt_succ_self _)
  have hcount : (r.removeSlot i).userCounter = r.userCounter - 1 := rfl
  have husers : ∀ y, (r.users y).writeBuf = none → ((r.removeSlot i).users y).writeBuf = none := by
    intro y hy
    by_cases hyi : y = (r.fds i).fd
    · subst hyi
      simpa [Room.removeSlot] using hlastbuf
    · simpa [Room.removeSlot, hyi] using hy
  intro k hk hlt
  by_cases hki : k = i
  · subst hki
    have hslot : (r.removeSlot k).fds k = r.fds r.userCounter := Function.update_self ..
    rw [hslot]
    exact ⟨hlast, husers _ hlastbuf⟩
  · have hslot : (r.removeSlot i).fds k = r.fds k := Function.update_of_ne hki ..
    obtain ⟨hmask, hbuf⟩ := h k hk (by omega)
    rw [hslot]
    exact ⟨hmask, husers _ hbuf⟩

/-- A new client is quiet if its record holds no output. -/
theorem Quiet.addSlot (h : r.Quiet) (hbuf : (r.users connfd).writeBuf = none) : (r.addSlot connfd).Quiet := by
  intro k hk hlt
  by_cases hlast : k = r.userCounter + 1
  · subst hlast
    have hslot : (r.addSlot connfd).fds (r.userCounter + 1) = ⟨connfd, newMask, 0⟩ := Function.update_self ..
    rw [hslot]
    exact ⟨rfl, hbuf⟩
  · have hslot : (r.addSlot connfd).fds k = r.fds k := Function.update_of_ne hlast ..
    rw [hslot]
    exact h k hk (by change k < r.userCounter + 1 + 1 at hlt; omega)

/-- With output in its record, a new client is not masked. -/
theorem addSlot_not_masked (hbuf : (r.users connfd).writeBuf ≠ none) : ¬ (r.addSlot connfd).Masked := by
  intro h
  obtain ⟨-, hin, -⟩ := h (r.userCounter + 1) (Nat.le_add_left ..) (Nat.lt_succ_self _)
  have hslot : (r.addSlot connfd).fds (r.userCounter + 1) = ⟨connfd, newMask, 0⟩ := Function.update_self ..
  rw [hslot] at hin
  exact hbuf (hin.mp (by decide : newMask.has pollIn))

/-- Somebody else is in the room. -/
def Others (r : Room) (x : Int) : Prop :=
  ∃ k, 1 ≤ k ∧ k < r.userCounter + 1 ∧ (r.fds k).fd ≠ x

/-- With nobody else there, a message changes nothing. -/
theorem Quiet.notify (h : r.Quiet) (halone : ¬ r.Others x) : (r.notify x).Quiet := by
  intro k hk hlt
  have hself : ∀ j, 1 ≤ j → j < r.userCounter + 1 → (r.fds j).fd = x := by
    intro j hj hjn
    by_contra hne
    exact halone ⟨j, hj, hjn, hne⟩
  have hslot : (r.notify x).fds k = r.fds k := if_neg fun hc => hc.2.2 (hself k hk hlt)
  have huser : (r.notify x).users (r.fds k).fd = r.users (r.fds k).fd :=
    if_neg fun hc => hc.1 (hself k hk hlt)
  rw [hslot, huser]
  exact h k hk hlt

/-- A message leaves everybody else polled for reading. -/
theorem Quiet.notify_not_masked (h : r.Quiet) (hothers : r.Others x) : ¬ (r.notify x).Masked := by
  obtain ⟨k, hk, hlt, hne⟩ := hothers
  intro hmasked
  obtain ⟨-, hin, -⟩ := hmasked k hk hlt
  have hslot : ((r.notify x).fds k).events = (r.fds k).events ||| ~~~pollIn ||| pollOut := by
    have hc : 1 ≤ k ∧ k ≤ r.userCounter ∧ (r.fds k).fd ≠ x := ⟨hk, Nat.le_of_lt_succ hlt, hne⟩
    simp [Room.notify, hc]
  have huser : ((r.notify x).users ((r.notify x).fds k).fd).writeBuf = some x := by
    have hmem : (r.fds k).fd ∈ segment (fun j => (r.fds j).fd) 1 (r.userCounter + 1) :=
      mem_segment.mpr ⟨k, ⟨hk, hlt⟩, rfl⟩
    rw [notify_fd]
    simp [Room.notify, hne, hmem]
  rw [hslot, (h k hk hlt).1, huser] at hin
  cases hin.mp (by decide)

theorem examine_joined {a : Answers} (hlisten : r.Listens i) (haccept : a.accept = some connfd)
    (hroom : r.userCounter < userLimit) : r.examine i a = (r.addSlot connfd, i + 1, .joined connfd) := by
  rw [Listens] at hlisten
  rw [examine]
  simp only [if_pos hlisten, haccept, if_neg (Nat.not_le_of_lt hroom)]

theorem examine_received {a : Answers} (hreads : r.Reads i) (hrecv : a.recv = .data d) :
    r.examine i a =
      ((r.fill (r.fds i).fd d).notify (r.fds i).fd, i + 1, .received (r.fds i).fd d) := by
  obtain ⟨hlisten, herr, hup, hin⟩ := hreads
  rw [Listens] at hlisten
  rw [examine]
  simp only [if_neg hlisten, if_neg herr, if_neg hup, if_pos hin, hrecv]

end Room

namespace Chat

variable {s t : Chat} {i : Nat} {a : Answers} {act : Action} {as : List Action}

/-- The iterations that leave a mask wrong: a message is received while somebody else is in the
    room, or a client comes whose record still holds output. -/
def Unmasks (s : Chat) : Action → Prop
  | .iterate a => ∃ i, s.scan = some i ∧
      ((s.room.Reads i ∧ (∃ d, a.recv = .data d) ∧ s.room.Others (s.room.fds i).fd) ∨
      (s.room.Listens i ∧ s.room.userCounter < userLimit ∧
        ∃ connfd, a.accept = some connfd ∧ (s.room.users connfd).writeBuf ≠ none))
  | _ => False

/-- The invariant of the runs without such an iteration. -/
def Calm (s : Chat) : Prop :=
  s.Kept ∧ s.room.Quiet

theorem Calm.iterate_quiet (hs : s.Calm) (hscan : s.scan = some i) (hi : i < s.room.userCounter + 1)
    (hgood : ¬ s.Unmasks (.iterate a)) : (s.iterate i a).room.Quiet := by
  obtain ⟨hkept, hquiet⟩ := hs
  have ho := s.room.examine_outcome i a
  unfold Chat.iterate
  generalize s.room.examine i a = q at ho
  cases ho with
  | silent _ _ => exact hquiet
  | refused _ _ _ => exact hquiet
  | @joined connfd hlisten haccept hroom =>
    refine hquiet.addSlot ?_
    by_contra hbuf
    exact hgood ⟨i, hscan, .inr ⟨hlisten, hroom, connfd, haccept, hbuf⟩⟩
  | hungUp hup => exact hquiet.removeSlot (hkept.room.hangsUp_pos hup) hi
  | @received d hreads hrecv =>
    refine (hquiet.fill _ d).notify fun hothers => ?_
    exact hgood ⟨i, hscan, .inl ⟨hreads, ⟨d, hrecv⟩, hothers⟩⟩
  | emptied _ _ => exact hquiet.fill _ []
  | failed hreads _ => exact (hquiet.fill _ []).removeSlot (hkept.room.reads_pos hreads) hi
  | @sent y _ _ hout _ hw =>
    -- nobody has output
    have hnone := (hquiet i (hkept.room.writes_pos hout) hi).2
    rw [hw] at hnone
    cases hnone

theorem Calm.iterate_masked (hs : s.Calm) (hscan : s.scan = some i)
    (hbad : s.Unmasks (.iterate a)) : ¬ (s.iterate i a).room.Masked := by
  obtain ⟨-, hquiet⟩ := hs
  obtain ⟨j, hj, h⟩ := hbad
  obtain rfl := Option.some.inj (hj.symm.trans hscan)
  unfold Chat.iterate
  rcases h with ⟨hreads, ⟨d, hrecv⟩, hothers⟩ | ⟨hlisten, hroom, connfd, haccept, hbuf⟩
  · rw [Room.examine_received hreads hrecv]
    exact (hquiet.fill _ d).notify_not_masked hothers
  · rw [Room.examine_joined hlisten haccept hroom]
    exact Room.addSlot_not_masked hbuf

theorem Quiet.polled {revents : Nat → Mask} (h : s.room.Quiet) : (s.polled revents).room.Quiet := by
  intro k hk hlt
  have hfd : ((s.polled revents).room.fds k).fd = (s.room.fds k).fd := by
    unfold Chat.polled
    dsimp only
    split <;> rfl
  have hevents : ((s.polled revents).room.fds k).events = (s.room.fds k).events := by
    unfold Chat.polled
    dsimp only
    split <;> rfl
  rw [hevents, hfd]
  exact h k hk hlt

/-- A step of a calm server keeps it calm, or leaves a mask wrong. -/
theorem Calm.step (hs : s.Calm) (hstep : Step s act t) :
    (¬ s.Unmasks act → t.Calm) ∧ (s.Unmasks act → ¬ t.room.Masked) := by
  have hkept := hs.1.step hstep
  cases hstep with
  | poll hscan hr => exact ⟨fun _ => ⟨hkept, Quiet.polled hs.2⟩, fun h => h.elim⟩
  | iterate hscan hi hp =>
    exact ⟨fun hgood => ⟨hkept, hs.iterate_quiet hscan hi hgood⟩, fun hbad => hs.iterate_masked hscan hbad⟩
  | finish hscan hi => exact ⟨fun _ => ⟨hkept, hs.2⟩, fun h => h.elim⟩

theorem start_calm (listenfd : Int) (users : Int → ClientData) (revents : Nat → Mask) :
    (start listenfd users revents).Calm := by
  refine ⟨start_kept listenfd users revents, fun k hk hlt => ?_⟩
  change k < 0 + 1 at hlt
  omega

/-- The masks follow the output in every state of a run exactly if no message is received while
    somebody else is in the room, and no client comes whose record still holds output. -/
theorem masked_iff (listenfd : Int) (users : Int → ClientData) (revents : Nat → Mask) (as : List Action)
    (t : Chat) :
    Run (fun s act t => Step s act t ∧ ¬ s.Unmasks act) (start listenfd users revents) as t ↔
      Run (fun s act t => Step s act t ∧ t.room.Masked) (start listenfd users revents) as t := by
  refine Run.congr (I := Calm) (fun s act t hs hstep hgood => (hs.step hstep).1 hgood)
    (fun s act t hs hstep => ⟨fun hgood => ?_, fun hmasked hbad => ?_⟩) (start_calm listenfd users revents)
  · exact ((hs.step hstep).1 hgood).2.masked
  · exact (hs.step hstep).2 hbad hmasked

/-- Two clients come, and the first one says something. -/
def greeting : List Action :=
  let arrival : Action := .poll fun k => if k = 0 then pollIn else 0
  [arrival, .iterate ⟨some 5, .eof⟩, .iterate ⟨none, .eof⟩, .finish,
    arrival, .iterate ⟨some 6, .eof⟩, .iterate ⟨none, .eof⟩, .iterate ⟨none, .eof⟩, .finish,
    .poll fun k => if k = 1 then pollIn else 0, .iterate ⟨none, .eof⟩, .iterate ⟨none, .data [104, 105]⟩]

/-- The other client is then polled for reading, with output to be written. -/
theorem greeting_unmasks : ∃ t, Run Step (start 3 (fun _ => ⟨none, []⟩) fun _ => 0) greeting t ∧
    ¬ t.room.Masked := by
  have hrun : ((greeting.foldlM step (start 3 (fun _ => ⟨none, []⟩) fun _ => 0)).map fun t =>
      (t.room.userCounter, decide ((t.room.fds 2).events.has pollIn), (t.room.users (t.room.fds 2).fd).writeBuf)) =
        some (2, true, some 5) := by
    decide +kernel
  obtain ⟨t, ht, heq⟩ := Option.map_eq_some_iff.mp hrun
  simp only [Prod.mk.injEq, decide_eq_true_eq] at heq
  refine ⟨t, Run.of_foldlM (fun _ _ _ => step_sound) ht, fun hmasked => ?_⟩
  obtain ⟨-, hin, -⟩ := hmasked 2 (by decide) (by omega)
  rw [hin.mp heq.2.1] at heq
  cases heq.2.2

end Chat

end Chatroom
