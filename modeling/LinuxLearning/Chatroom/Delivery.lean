-- SUMMARY: Which messages of the chat room reach whom: the messages that wait in a client's buffer, the steps that spoil one, and the runs without such a step.
import LinuxLearning.Chatroom.Slots

/-!
# Delivery

A message waits in the buffer of its sender, and each receiver has one pointer to it. The
next message for the receiver replaces the pointer; reading from the sender again, or
moving another record over the sender's when it leaves, replaces the text. A run without
such a step delivers every message once and unaltered, and every such step breaks this.
-/

namespace Chatroom

open Transition Segment

/-! ## What waits -/

/-- The slot of a client that is to be sent what is in the buffer of `x`. -/
def Awaits (users : Int → ClientData) (x : Int) (p : PollFd) : Prop :=
  p.events.has pollOut ∧ (users p.fd).writeBuf = some x

instance (users : Int → ClientData) (x : Int) (p : PollFd) : Decidable (Awaits users x p) :=
  inferInstanceAs (Decidable (_ ∧ _))

/-- The message that waits for the client at a slot, if any. -/
def pending (users : Int → ClientData) (p : PollFd) : List (List UInt8) :=
  if p.events.has pollOut then
    match (users p.fd).writeBuf with
    | none => []
    | some y => [(users y).text]
  else []

namespace Room

/-- The slots of the clients. -/
def slots (r : Room) : List PollFd :=
  segment r.fds 1 (r.userCounter + 1)

def Awaited (r : Room) (x : Int) : Prop :=
  ∃ p ∈ r.slots, Awaits r.users x p

/-- The iteration at slot `i` replaces a message that waits. It overwrites the buffer that
    another client is to be sent, or points another client to a new message while one
    waits for it. -/
def Spoils (r : Room) (i : Nat) (a : Answers) : Prop :=
  let x := (r.fds i).fd
  let last := (r.fds r.userCounter).fd
  (r.HangsUp i ∧ r.Awaited x ∧ (r.users last).text ≠ (r.users x).text) ∨
  (r.Reads i ∧
    match a.recv with
    | .data _ => ∃ p ∈ r.slots, p.fd ≠ x ∧ pending r.users p ≠ []
    | .eof | .eagain => r.Awaited x
    | .error => r.Awaited x ∧ (last = x ∨ (r.users last).text ≠ (r.users x).text))

theorem Reads.not_hangsUp {r : Room} {i : Nat} (h : r.Reads i) : ¬ r.HangsUp i :=
  fun hup => h.2.2.1 hup.2.2

theorem HangsUp.spoils_iff {r : Room} {i : Nat} (h : r.HangsUp i) (a : Answers) :
    r.Spoils i a ↔ r.Awaited (r.fds i).fd ∧
      (r.users (r.fds r.userCounter).fd).text ≠ (r.users (r.fds i).fd).text := by
  constructor
  · rintro (h' | h')
    · exact h'.2
    · exact absurd h h'.1.not_hangsUp
  · exact fun h' => .inl ⟨h, h'⟩

theorem Reads.spoils_iff {r : Room} {i : Nat} (h : r.Reads i) (a : Answers) :
    r.Spoils i a ↔
      match a.recv with
      | .data _ => ∃ p ∈ r.slots, p.fd ≠ (r.fds i).fd ∧ pending r.users p ≠ []
      | .eof | .eagain => r.Awaited (r.fds i).fd
      | .error => r.Awaited (r.fds i).fd ∧ ((r.fds r.userCounter).fd = (r.fds i).fd ∨
          (r.users (r.fds r.userCounter).fd).text ≠ (r.users (r.fds i).fd).text) := by
  constructor
  · rintro (h' | h')
    · exact absurd h'.1 h.not_hangsUp
    · exact h'.2
  · exact fun h' => .inr ⟨h, h'⟩

theorem not_spoils {r : Room} {i : Nat} {a : Answers} (hup : ¬ r.HangsUp i) (hreads : ¬ r.Reads i) :
    ¬ r.Spoils i a := by
  rintro (h | h)
  · exact hup h.1
  · exact hreads h.1

end Room

namespace Chat

/-- What was sent to a client, and then the message that waits for it, is what the others
    have sent since it joined. Nobody is sent anything else. -/
structure Faithful (s : Chat) : Prop where
  clients : ∀ p ∈ s.room.slots, s.sent p.fd ++ pending s.room.users p = s.due p.fd
  others : ∀ fd, s.sent fd <+: s.due fd

def Spoils (s : Chat) : Action → Prop
  | .iterate a => ∃ i, s.scan = some i ∧ s.room.Spoils i a
  | _ => False

/-- No message has a NUL in it. -/
def Action.NulFree : Action → Prop
  | .iterate a => ∀ d, a.recv = .data d → 0 ∉ d
  | _ => True

def PlainStep (s : Chat) (e : Action) (t : Chat) : Prop :=
  Step s e t ∧ e.NulFree

end Chat

section

variable {users users' : Int → ClientData} {p q : PollFd} {x y : Int} {d : List UInt8}

theorem pending_eq (h : Awaits users x p) : pending users p = [(users x).text] := by
  rw [pending, if_pos h.1, h.2]

theorem pending_quiet (h : ¬ p.events.has pollOut) : pending users p = [] := by
  rw [pending, if_neg h]

theorem pending_none (h : (users p.fd).writeBuf = none) : pending users p = [] := by
  rw [pending, h]
  split <;> rfl

/-- Where only the text at `x` has changed, only those who await it are concerned. -/
theorem pending_overwrite (hw : (users' p.fd).writeBuf = (users p.fd).writeBuf)
    (ht : ∀ y, y ≠ x → (users' y).text = (users y).text) :
    pending users' p = if Awaits users x p then [(users' x).text] else pending users p := by
  by_cases hout : p.events.has pollOut
  · cases hb : (users p.fd).writeBuf with
    | none =>
      have : ¬ Awaits users x p := fun h => by cases hb.symm.trans h.2
      rw [if_neg this, pending_none hb, pending_none (hw.trans hb)]
    | some y =>
      rw [pending_eq ⟨hout, hw.trans hb⟩]
      by_cases hy : y = x
      · subst hy
        rw [if_pos ⟨hout, hb⟩]
      · have : ¬ Awaits users x p := fun h => hy (Option.some.inj (hb.symm.trans h.2))
        rw [if_neg this, pending_eq ⟨hout, hb⟩, ht y hy]
  · rw [if_neg fun h => hout h.1, pending_quiet hout, pending_quiet hout]

theorem pending_congr (hw : (users' p.fd).writeBuf = (users p.fd).writeBuf)
    (ht : ∀ y, (users' y).text = (users y).text) : pending users' p = pending users p := by
  rw [@pending_overwrite _ _ _ p.fd hw fun y _ => ht y]
  split
  · next ha => rw [ht, pending_eq ha]
  · rfl

end

/-! ## The slots and the buffers after an operation -/

theorem text_fill {d : List UInt8} (hnul : 0 ∉ d) (hd : d.length < bufferSize) (w : Option Int) :
    ClientData.text ⟨w, d ++ List.replicate (bufferSize - d.length) 0⟩ = d := by
  obtain ⟨n, hn⟩ := Nat.exists_eq_add_of_lt hd
  have hzero : List.replicate (bufferSize - d.length) (0 : UInt8) = 0 :: List.replicate n 0 := by
    rw [show bufferSize - d.length = n + 1 by omega, List.replicate_succ]
  have hplain : ∀ b ∈ d, decide (b ≠ 0) = true := fun b hb => decide_eq_true fun h => hnul (h ▸ hb)
  rw [ClientData.text, hzero, List.takeWhile_append_of_pos hplain]
  simp

namespace Room

variable {r : Room} {i : Nat} {connfd x : Int} {d : List UInt8} {p : PollFd}

theorem clients_eq : r.clients = r.slots.map PollFd.fd := by
  rw [clients, slotsFrom, slots, map_segment]

theorem fd_mem_clients (hp : p ∈ r.slots) : p.fd ∈ r.clients := by
  rw [clients_eq]
  exact List.mem_map_of_mem hp

theorem slot_mem (hpos : 1 ≤ i) (hi : i < r.userCounter + 1) : r.fds i ∈ r.slots :=
  mem_segment.mpr ⟨i, ⟨hpos, hi⟩, rfl⟩

theorem slots_addSlot :
    (r.addSlot connfd).slots = r.slots ++ [⟨connfd, pollIn ||| pollRdhup ||| pollErr, 0⟩] := by
  rw [slots, slots, addSlot, segment_concat (Nat.le_add_left ..)]
  congr 1
  · exact segment_congr fun k _ hk => Function.update_of_ne hk.ne ..
  · simp

theorem slots_removeSlot (hpos : 1 ≤ i) (hi : i < r.userCounter + 1) :
    List.Perm r.slots (r.fds i :: (r.removeSlot i).slots) := by
  have hcount : (r.removeSlot i).userCounter + 1 = r.userCounter := by
    show r.userCounter - 1 + 1 = r.userCounter
    omega
  rw [slots, slots, hcount]
  exact segment_remove hpos (Nat.le_of_lt_succ hi)

/-- What `notify` does to a slot. -/
def told (x : Int) (p : PollFd) : PollFd :=
  if p.fd ≠ x then { p with events := p.events ||| ~~~pollIn ||| pollOut } else p

theorem slots_notify : (r.notify x).slots = r.slots.map (told x) := by
  rw [slots, slots, map_segment]
  refine segment_congr fun k hk hk' => ?_
  have hn : k ≤ r.userCounter := Nat.le_of_lt_succ hk'
  simp only [notify, told, hk, hn, true_and]

/-- What the `POLLOUT` branch does to the slot of `x`. -/
def written (x : Int) (p : PollFd) : PollFd :=
  if p.fd = x then { p with events := p.events ||| ~~~pollOut ||| pollIn } else p

theorem slots_wrote (h : r.WellFormed) (hpos : 1 ≤ i) (hi : i < r.userCounter + 1) :
    (r.wrote i).slots = r.slots.map (written (r.fds i).fd) := by
  rw [slots, slots, map_segment]
  refine segment_congr fun k hk hk' => ?_
  by_cases hki : k = i
  · subst hki
    simp [wrote, written]
  · have hne : (r.fds k).fd ≠ (r.fds i).fd := fun he => hki (index_unique h.nodup ⟨hk, hk'⟩ ⟨hpos, hi⟩ he)
    simp [wrote, written, hki, hne]

/-! ## Pointers -/

/-- Only those who were told of a message are asked whether they can be written to, and
    nobody is told of a message of its own. -/
structure Addressed (r : Room) : Prop where
  requested : ∀ p ∈ r.slots, p.revents.has pollOut → p.events.has pollOut
  foreign : ∀ p ∈ r.slots, ¬ Awaits r.users p.fd p

theorem Addressed.addSlot (h : r.Addressed) : (r.addSlot connfd).Addressed := by
  have hquiet : ¬ (pollIn ||| pollRdhup ||| pollErr).has pollOut := by decide
  constructor
  all_goals
    intro p hp
    rw [slots_addSlot, List.mem_append, List.mem_singleton] at hp
  · rcases hp with hp | rfl
    · exact h.requested p hp
    · exact fun hr => absurd hr (by decide : ¬ (0 : Mask).has pollOut)
  · rcases hp with hp | rfl
    · exact h.foreign p hp
    · exact fun ha => hquiet ha.1

/-- The clients that stay keep their slots and records. -/
theorem staying (h : r.WellFormed) (hpos : 1 ≤ i) (hi : i < r.userCounter + 1)
    (hp : p ∈ (r.removeSlot i).slots) :
    p ∈ r.slots ∧ p.fd ≠ (r.fds i).fd ∧ (r.removeSlot i).users p.fd = r.users p.fd := by
  have hperm := slots_removeSlot hpos hi
  have hne : p.fd ≠ (r.fds i).fd := by
    have hnodup := (hperm.map PollFd.fd).nodup_iff.mp (clients_eq ▸ h.nodup)
    exact fun he => (List.nodup_cons.mp hnodup).1 (he ▸ List.mem_map_of_mem hp)
  exact ⟨hperm.mem_iff.mpr (List.mem_cons_of_mem _ hp), hne, Function.update_of_ne hne ..⟩

theorem Addressed.removeSlot (h : r.Addressed) (hw : r.WellFormed) (hpos : 1 ≤ i)
    (hi : i < r.userCounter + 1) :
    (r.removeSlot i).Addressed := by
  constructor
  · intro p hp
    exact h.requested p (staying hw hpos hi hp).1
  · intro p hp ha
    obtain ⟨hmem, -, husers⟩ := staying hw hpos hi hp
    rw [Awaits, husers] at ha
    exact h.foreign p hmem ha

theorem fill_writeBuf (fd : Int) : ((r.fill x d).users fd).writeBuf = (r.users fd).writeBuf := by
  by_cases hfd : fd = x
  · subst hfd
    simp [fill, setUser]
  · simp [fill, setUser, hfd]

theorem fill_other {y : Int} (hy : y ≠ x) : (r.fill x d).users y = r.users y :=
  Function.update_of_ne hy ..

theorem fill_text (hnul : 0 ∉ d) (hd : d.length < bufferSize) : ((r.fill x d).users x).text = d := by
  have hself : (r.fill x d).users x = ⟨(r.users x).writeBuf, d ++ List.replicate (bufferSize - d.length) 0⟩ :=
    Function.update_self ..
  rw [hself, text_fill hnul hd]

theorem Addressed.fill (h : r.Addressed) (x : Int) (d : List UInt8) : (r.fill x d).Addressed := by
  refine ⟨h.requested, fun p hp ha => h.foreign p hp ?_⟩
  rwa [Awaits, fill_writeBuf] at ha

theorem told_fd : (told x p).fd = p.fd := by
  unfold told
  split <;> rfl

theorem told_self (hp : p.fd = x) : told x p = p :=
  if_neg (not_not.mpr hp)

theorem told_out (hp : p.fd ≠ x) : (told x p).events.has pollOut := by
  rw [told, if_pos hp]
  exact Mask.has_or_self (by decide)

theorem notify_users_of_ne (hp : p ∈ r.slots) (hne : p.fd ≠ x) :
    (r.notify x).users p.fd = { r.users p.fd with writeBuf := some x } := by
  have hmem : p.fd ∈ segment (fun j => (r.fds j).fd) 1 (r.userCounter + 1) := fd_mem_clients hp
  simp only [notify, hne, hmem, ne_eq, not_false_eq_true, and_self, if_true]

theorem notify_users_self : (r.notify x).users x = r.users x := by
  simp [notify]

theorem notify_text (y : Int) : ((r.notify x).users y).text = (r.users y).text := by
  unfold notify
  dsimp only
  split <;> rfl

theorem Addressed.notify (h : r.Addressed) (x : Int) : (r.notify x).Addressed := by
  constructor
  all_goals
    intro p' hp'
    rw [slots_notify] at hp'
    obtain ⟨p, hp, rfl⟩ := List.mem_map.mp hp'
    by_cases hpx : p.fd = x
  · rw [told_self hpx]
    exact h.requested p hp
  · exact fun _ => told_out hpx
  · rw [told_self hpx, Awaits, hpx, notify_users_self, ← hpx]
    exact h.foreign p hp
  · rw [Awaits, told_fd, notify_users_of_ne hp hpx]
    exact fun ha => hpx (Option.some.inj ha.2).symm

theorem written_fd : (written x p).fd = p.fd := by
  unfold written
  split <;> rfl

theorem written_revents : (written x p).revents = p.revents := by
  unfold written
  split <;> rfl

theorem written_out (h : p.events.has pollOut) : (written x p).events.has pollOut := by
  unfold written
  split
  · exact Mask.has_or_left (by decide) (Mask.has_or_left (by decide) h)
  · exact h

theorem written_of_ne (hp : p.fd ≠ x) : written x p = p :=
  if_neg hp

theorem wrote_users_of_ne {fd : Int} (hfd : fd ≠ (r.fds i).fd) : (r.wrote i).users fd = r.users fd :=
  Function.update_of_ne hfd ..

theorem wrote_writeBuf : ((r.wrote i).users (r.fds i).fd).writeBuf = none := by
  simp [wrote]

theorem wrote_text (y : Int) : ((r.wrote i).users y).text = (r.users y).text := by
  by_cases hy : y = (r.fds i).fd
  · subst hy
    simp [wrote, ClientData.text]
  · rw [wrote_users_of_ne hy]

theorem Addressed.wrote (h : r.Addressed) (hw : r.WellFormed) (hpos : 1 ≤ i) (hi : i < r.userCounter + 1) :
    (r.wrote i).Addressed := by
  constructor
  all_goals
    intro p' hp'
    rw [slots_wrote hw hpos hi] at hp'
    obtain ⟨p, hp, rfl⟩ := List.mem_map.mp hp'
  · rw [written_revents]
    exact fun hr => written_out (h.requested p hp hr)
  · by_cases hpx : p.fd = (r.fds i).fd
    · rw [Awaits, written_fd, hpx, wrote_writeBuf]
      exact fun ha => by cases ha.2
    · rw [written_of_ne hpx, Awaits, wrote_users_of_ne hpx]
      exact h.foreign p hp

end Room

namespace Chat

variable {s t : Chat} {i : Nat} {a : Answers} {e : Action} {x : Int}

structure Settled (s : Chat) : Prop where
  kept : s.Kept
  addressed : s.room.Addressed
  words : ∀ fd, ∀ d ∈ s.due fd, d ≠ []

theorem Settled.iterate (hs : s.Settled) (hscan : s.scan = some i) (hi : i < s.room.userCounter + 1)
    (hp : s.Possible a) : (s.iterate i a).Settled := by
  refine ⟨hs.kept.iterate hscan hi hp, ?_, ?_⟩
  all_goals
    have ho := s.room.examine_outcome i a
    unfold Chat.iterate
    generalize s.room.examine i a = q at ho
  · have hroom := hs.kept.room
    cases ho with
    | silent _ _ | refused _ _ _ => exact hs.addressed
    | joined _ _ _ => exact hs.addressed.addSlot
    | hungUp hup => exact hs.addressed.removeSlot hroom (hroom.hangsUp_pos hup) hi
    | received _ _ => exact (hs.addressed.fill _ _).notify _
    | emptied _ _ => exact hs.addressed.fill _ _
    | failed hreads _ => exact (hs.addressed.fill _ _).removeSlot (hroom.fill _ _) (hroom.reads_pos hreads) hi
    | sent _ _ hout _ _ => exact hs.addressed.wrote hroom (hroom.writes_pos hout) hi
  · intro fd d hd
    cases ho with
    | silent _ _ | refused _ _ _ | hungUp _ | emptied _ _ | failed _ _ | sent _ _ _ _ _ =>
      exact hs.words fd d hd
    | @joined connfd _ _ _ =>
      by_cases hfd : fd = connfd
      · subst hfd
        simp [record] at hd
      · exact hs.words fd d (by simpa [record, hfd] using hd)
    | @received d' _ hrecv =>
      have hnew := (hp.recv d' hrecv).1
      simp only [record] at hd
      split at hd
      · rcases List.mem_append.mp hd with hd | hd
        · exact hs.words fd d hd
        · rwa [List.mem_singleton.mp hd]
      · exact hs.words fd d hd

/-- `poll` changes what is reported for a slot, within what the slot asks for. -/
theorem slots_polled {revents : Nat → Mask}
    (hr : ∀ k, k < s.room.userCounter + 1 → Reportable (s.room.fds k).events (revents k)) {p' : PollFd}
    (hp' : p' ∈ (s.polled revents).room.slots) :
    ∃ p ∈ s.room.slots, ∃ m, Reportable p.events m ∧ p' = { p with revents := m } := by
  obtain ⟨k, hk, rfl⟩ := mem_segment.mp hp'
  refine ⟨s.room.fds k, mem_segment.mpr ⟨k, hk, rfl⟩, revents k, hr k hk.2, ?_⟩
  exact if_pos (Nat.le_of_lt_succ hk.2)

theorem Settled.polled (hs : s.Settled) {revents : Nat → Mask}
    (hr : ∀ k, k < s.room.userCounter + 1 → Reportable (s.room.fds k).events (revents k)) :
    (s.polled revents).Settled := by
  refine ⟨hs.kept.polled (hr 0 (Nat.succ_pos _)), ⟨fun p' hp' => ?_, fun p' hp' => ?_⟩, hs.words⟩
  all_goals
    obtain ⟨p, hp, m, hm, rfl⟩ := slots_polled hr hp'
  · exact hm.requested (by decide) (by decide)
  · exact hs.addressed.foreign p hp

theorem Settled.step (hs : s.Settled) (h : Step s e t) : t.Settled := by
  cases h with
  | poll _ hr => exact hs.polled hr
  | iterate hscan hi hp => exact hs.iterate hscan hi hp
  | finish hscan hi => exact ⟨hs.kept.finish hscan hi, hs.addressed, hs.words⟩

theorem start_settled (listenfd : Int) (users : Int → ClientData) (revents : Nat → Mask) :
    (start listenfd users revents).Settled where
  kept := start_kept listenfd users revents
  addressed := ⟨fun _ h => absurd h List.not_mem_nil, fun _ h => absurd h List.not_mem_nil⟩
  words _ _ h := absurd h List.not_mem_nil

/-! ## Steps that keep the messages -/

/-- Where only the text at `x` may have changed, the clients that stay are served as before
    unless they await it. -/
theorem Faithful.overwrite (hf : s.Faithful) (r : Room) (hslots : ∀ p ∈ r.slots, p ∈ s.room.slots)
    (hw : ∀ p ∈ r.slots, (r.users p.fd).writeBuf = (s.room.users p.fd).writeBuf)
    (ht : ∀ y, y ≠ x → (r.users y).text = (s.room.users y).text) :
    (∀ p ∈ r.slots, s.sent p.fd ++ pending r.users p = s.due p.fd) ↔
      ∀ p ∈ r.slots, Awaits s.room.users x p → (r.users x).text = (s.room.users x).text := by
  refine forall₂_congr fun p hp => ?_
  have hp' := hf.clients p (hslots p hp)
  rw [pending_overwrite (hw p hp) ht, ← hp', List.append_cancel_left_eq]
  by_cases ha : Awaits s.room.users x p
  · rw [if_pos ha, pending_eq ha]
    simp [ha]
  · rw [if_neg ha]
    simp [ha]

theorem Settled.awaited_word (hs : s.Settled) (hf : s.Faithful) {p : PollFd} (hp : p ∈ s.room.slots)
    (ha : Awaits s.room.users x p) : (s.room.users x).text ≠ [] := by
  refine hs.words p.fd _ ?_
  rw [← hf.clients p hp, pending_eq ha]
  exact List.mem_append_right _ (List.mem_singleton_self _)

theorem faithful_iff_of_same (hroom : t.room = s.room) (hsent : t.sent = s.sent) (hdue : t.due = s.due) :
    t.Faithful ↔ s.Faithful :=
  ⟨fun h => ⟨hroom ▸ hsent ▸ hdue ▸ h.clients, hsent ▸ hdue ▸ h.others⟩,
    fun h => ⟨hroom ▸ hsent ▸ hdue ▸ h.clients, hsent ▸ hdue ▸ h.others⟩⟩

theorem Faithful.congr (hf : s.Faithful) (hsent : t.sent = s.sent) (hdue : t.due = s.due) :
    t.Faithful ↔ ∀ p ∈ t.room.slots, s.sent p.fd ++ pending t.room.users p = s.due p.fd := by
  constructor
  · intro ht p hp
    rw [← hsent, ← hdue]
    exact ht.clients p hp
  · intro h
    exact ⟨hsent ▸ hdue ▸ h, hsent ▸ hdue ▸ hf.others⟩

/-- A client that leaves takes its buffer along, and another record may come in its place. -/
theorem Faithful.removeSlot_iff (hs : s.Settled) (hf : s.Faithful) (r : Room) (hpos : 1 ≤ i)
    (hi : i < r.userCounter + 1) (hw : r.WellFormed) (hslots : r.slots = s.room.slots)
    (hfd : (r.fds i).fd = x) (hwb : ∀ fd, (r.users fd).writeBuf = (s.room.users fd).writeBuf)
    (ht : ∀ y, y ≠ x → (r.users y).text = (s.room.users y).text) :
    (∀ p ∈ (r.removeSlot i).slots, s.sent p.fd ++ pending (r.removeSlot i).users p = s.due p.fd) ↔
      (s.room.Awaited x → (r.users (r.fds r.userCounter).fd).text = (s.room.users x).text) := by
  have hstay : ∀ p ∈ (r.removeSlot i).slots, p ∈ s.room.slots ∧ p.fd ≠ x ∧
      (r.removeSlot i).users p.fd = r.users p.fd := fun p hp => by
    have := Room.staying hw hpos hi hp
    rwa [hslots, hfd] at this
  have hover : ((r.removeSlot i).users x) = r.users (r.fds r.userCounter).fd := by
    subst hfd
    exact Function.update_self ..
  rw [hf.overwrite _ (fun p hp => (hstay p hp).1) (fun p hp => (congrArg _ (hstay p hp).2.2).trans (hwb _))
    fun y hy => ?_, hover]
  · constructor
    · rintro h ⟨p, hp, ha⟩
      have hmem : p = r.fds i ∨ p ∈ (r.removeSlot i).slots := by
        rw [← hslots, (Room.slots_removeSlot hpos hi).mem_iff, List.mem_cons] at hp
        exact hp
      rcases hmem with rfl | hmem
      · rw [← hfd] at ha
        exact absurd ha (hs.addressed.foreign _ hp)
      · exact h p hmem ha
    · exact fun h p hp ha => h ⟨p, (hstay p hp).1, ha⟩
  · rw [← ht y hy]
    subst hfd
    exact congrArg _ (Function.update_of_ne hy ..)

theorem Faithful.joined (hf : s.Faithful) {connfd : Int} (hnew : connfd ∉ s.room.clients) :
    Faithful { s.record (.joined connfd) with room := s.room.addSlot connfd } := by
  have hquiet : ¬ (pollIn ||| pollRdhup ||| pollErr).has pollOut := by decide
  constructor
  · intro p hp
    rw [Room.slots_addSlot, List.mem_append, List.mem_singleton] at hp
    rcases hp with hp | rfl
    · have hne : p.fd ≠ connfd := fun h => hnew (h ▸ Room.fd_mem_clients hp)
      have hsame : pending (s.room.addSlot connfd).users p = pending s.room.users p := rfl
      simpa [record, hne, hsame] using hf.clients p hp
    · rw [pending_quiet hquiet]
      simp [record]
  · intro fd
    by_cases hfd : fd = connfd
    · subst hfd
      simp [record]
    · simpa [record, hfd] using hf.others fd

/-- A new message can be queued for those for whom none waits. -/
theorem Faithful.received_iff (hs : s.Settled) (hf : s.Faithful) {d : List UInt8} (hnul : 0 ∉ d)
    (hd : d.length < bufferSize) :
    Faithful { s.record (.received x d) with room := (s.room.fill x d).notify x } ↔
      ∀ p ∈ s.room.slots, p.fd ≠ x → pending s.room.users p = [] := by
  have hself : ∀ p ∈ s.room.slots, p.fd = x →
      pending ((s.room.fill x d).notify x).users p = pending s.room.users p := by
    intro p hp hpx
    have hforeign := hs.addressed.foreign p hp
    rw [@pending_overwrite s.room.users _ p x, if_neg (hpx ▸ hforeign)]
    · rw [hpx, Room.notify_users_self, Room.fill_writeBuf]
    · intro y hy
      rw [Room.notify_text, Room.fill_other hy]
  have hother : ∀ p ∈ s.room.slots, p.fd ≠ x →
      pending ((s.room.fill x d).notify x).users (Room.told x p) = [d] := by
    intro p hp hpx
    have hawaits : Awaits ((s.room.fill x d).notify x).users x (Room.told x p) := by
      refine ⟨Room.told_out hpx, ?_⟩
      have hp' : p ∈ (s.room.fill x d).slots := hp
      rw [Room.told_fd, Room.notify_users_of_ne hp' hpx]
    rw [pending_eq hawaits, Room.notify_text, Room.fill_text hnul hd]
  have hdue : ∀ p ∈ s.room.slots, p.fd ≠ x → (s.record (.received x d)).due p.fd = s.due p.fd ++ [d] :=
    fun p hp hpx => if_pos ⟨hpx, Room.fd_mem_clients hp⟩
  constructor
  · intro h p hp hpx
    have ht := h.clients (Room.told x p) (by rw [Room.slots_notify]; exact List.mem_map_of_mem hp)
    rw [Room.told_fd] at ht
    rw [hother p hp hpx] at ht
    rw [hdue p hp hpx] at ht
    have hsent : s.sent p.fd = s.due p.fd := List.append_cancel_right ht
    have := hf.clients p hp
    rw [← hsent] at this
    exact List.append_right_eq_self.mp this
  · intro h
    refine ⟨fun p' hp' => ?_, fun fd => ?_⟩
    · rw [Room.slots_notify] at hp'
      obtain ⟨p, hp, rfl⟩ := List.mem_map.mp hp'
      rw [Room.told_fd]
      by_cases hpx : p.fd = x
      · have hkeep : (s.record (.received x d)).due p.fd = s.due p.fd := if_neg fun hc => hc.1 hpx
        rw [Room.told_self hpx, hself p hp hpx, hkeep]
        exact hf.clients p hp
      · have := hf.clients p hp
        rw [h p hp hpx, List.append_nil] at this
        rw [hother p hp hpx, hdue p hp hpx, ← this]
        rfl
    · refine (hf.others fd).trans ?_
      unfold record
      dsimp only
      split
      · exact List.prefix_append ..
      · exact List.prefix_rfl

theorem Faithful.sent (hs : s.Settled) (hf : s.Faithful) (hpos : 1 ≤ i) (hi : i < s.room.userCounter + 1)
    (hout : (s.room.fds i).revents.has pollOut) {y : Int}
    (hw : (s.room.users (s.room.fds i).fd).writeBuf = some y) :
    Faithful { s.record (.sent (s.room.fds i).fd (s.room.users y).text) with room := s.room.wrote i } := by
  have hslot := Room.slot_mem hpos hi
  have hpending : pending s.room.users (s.room.fds i) = [(s.room.users y).text] :=
    pending_eq ⟨hs.addressed.requested _ hslot hout, hw⟩
  have hdue := hf.clients _ hslot
  rw [hpending] at hdue
  constructor
  · intro p' hp'
    rw [Room.slots_wrote hs.kept.room hpos hi] at hp'
    obtain ⟨p, hp, rfl⟩ := List.mem_map.mp hp'
    by_cases hpx : p.fd = (s.room.fds i).fd
    · have hnone : pending (s.room.wrote i).users (Room.written (s.room.fds i).fd p) = [] :=
        pending_none (by rw [Room.written_fd, hpx, Room.wrote_writeBuf])
      rw [Room.written_fd, hnone, hpx]
      simpa [record] using hdue
    · have hsame : pending (s.room.wrote i).users p = pending s.room.users p :=
        pending_congr (by rw [Room.wrote_users_of_ne hpx]) Room.wrote_text
      rw [Room.written_of_ne hpx, hsame]
      simpa [record, hpx] using hf.clients p hp
  · intro fd
    by_cases hfd : fd = (s.room.fds i).fd
    · subst hfd
      simp only [record, Function.update_self, hdue]
      exact List.prefix_rfl
    · simpa [record, hfd] using hf.others fd

theorem Faithful.polled (hf : s.Faithful) {revents : Nat → Mask}
    (hr : ∀ k, k < s.room.userCounter + 1 → Reportable (s.room.fds k).events (revents k)) :
    (s.polled revents).Faithful := by
  refine ⟨fun p' hp' => ?_, hf.others⟩
  obtain ⟨p, hp, m, -, rfl⟩ := slots_polled hr hp'
  exact hf.clients p hp

/-- An iteration keeps the messages exactly if it does not replace one that waits. -/
theorem Faithful.iterate_iff (hs : s.Settled) (hf : s.Faithful)
    (hi : i < s.room.userCounter + 1) (hp : s.Possible a) (hnul : ∀ d, a.recv = .data d → 0 ∉ d) :
    ¬ s.room.Spoils i a ↔ (s.iterate i a).Faithful := by
  have hroom := hs.kept.room
  have ho := s.room.examine_outcome i a
  unfold Chat.iterate
  generalize s.room.examine i a = q at ho
  cases ho with
  | silent hup hreads => exact iff_of_true (Room.not_spoils hup hreads) ⟨hf.clients, hf.others⟩
  | refused hlisten _ _ =>
    exact iff_of_true (Room.not_spoils (fun h => h.1 hlisten) fun h => h.1 hlisten) ⟨hf.clients, hf.others⟩
  | @joined connfd hlisten haccept _ =>
    have ht := hf.joined (hs.kept.not_client (hp.accept _ haccept).2.2.2)
    exact iff_of_true (Room.not_spoils (fun h => h.1 hlisten) fun h => h.1 hlisten) ⟨ht.clients, ht.others⟩
  | hungUp hup =>
    have hpos := hroom.hangsUp_pos hup
    refine .trans ?_ (.symm (hf.congr rfl rfl))
    refine .trans ?_ (hf.removeSlot_iff hs s.room hpos hi hroom rfl rfl (fun _ => rfl) fun _ _ => rfl).symm
    rw [hup.spoils_iff, not_and, not_ne_iff]
  | @received d hreads hrecv =>
    have hiff := @Faithful.received_iff s (s.room.fds i).fd hs hf d (hnul d hrecv) (hp.recv d hrecv).2
    refine .trans (.trans ?_ hiff.symm) (.symm (faithful_iff_of_same rfl rfl rfl))
    simp only [hreads.spoils_iff, hrecv, ne_eq, not_exists, not_and, not_not]
  | emptied hreads hrecv =>
    have hspoils : s.room.Spoils i a ↔ s.room.Awaited (s.room.fds i).fd := by
      rcases hrecv with hrecv | hrecv
      all_goals rw [hreads.spoils_iff, hrecv]
    refine .trans ?_ (.symm (hf.congr rfl rfl))
    refine .trans ?_ (hf.overwrite (s.room.fill (s.room.fds i).fd []) (fun _ h => h)
      (fun _ _ => Room.fill_writeBuf _) fun y hy => congrArg _ (Room.fill_other hy)).symm
    rw [hspoils, Room.fill_text List.not_mem_nil (by decide)]
    constructor
    · exact fun h p hmem ha => absurd ⟨p, hmem, ha⟩ h
    · rintro h ⟨p, hmem, ha⟩
      exact hs.awaited_word hf hmem ha (h p hmem ha).symm
  | failed hreads hrecv =>
    have hpos := hroom.reads_pos hreads
    refine .trans ?_ (.symm (hf.congr rfl rfl))
    refine .trans ?_ (hf.removeSlot_iff hs (s.room.fill (s.room.fds i).fd []) hpos hi (hroom.fill _ []) rfl rfl
      Room.fill_writeBuf fun y hy => congrArg _ (Room.fill_other hy)).symm
    rw [hreads.spoils_iff, hrecv]
    dsimp only
    rw [not_and]
    refine forall_congr' fun ha => ?_
    show _ ↔ ((s.room.fill (s.room.fds i).fd []).users (s.room.fds s.room.userCounter).fd).text =
      (s.room.users (s.room.fds i).fd).text
    by_cases hlast : (s.room.fds s.room.userCounter).fd = (s.room.fds i).fd
    · -- the client was the last one, and its own empty buffer stays
      obtain ⟨p, hmem, hawaits⟩ := ha
      rw [hlast, Room.fill_text List.not_mem_nil (by decide)]
      exact iff_of_false (fun h => h (.inl rfl)) (hs.awaited_word hf hmem hawaits).symm
    · rw [Room.fill_other hlast]
      simp [hlast]
  | sent hup hreads hout _ hw =>
    have ht := hf.sent hs (hroom.writes_pos hout) hi hout hw
    exact iff_of_true (Room.not_spoils hup hreads) ⟨ht.clients, ht.others⟩

/-! ## Runs -/

theorem PlainStep.faithful_iff (hs : s.Settled ∧ s.Faithful) (h : PlainStep s e t) :
    ¬ s.Spoils e ↔ t.Faithful := by
  obtain ⟨hstep, hnul⟩ := h
  cases hstep with
  | poll hscan hr => exact iff_of_true id (hs.2.polled hr)
  | iterate hscan hi hp =>
    rw [← hs.2.iterate_iff hs.1 hi hp hnul]
    refine not_congr ⟨?_, fun h => ⟨_, hscan, h⟩⟩
    rintro ⟨j, hj, h⟩
    rwa [Option.some.inj (hscan.symm.trans hj)]
  | finish hscan hi => exact iff_of_true id ⟨hs.2.clients, hs.2.others⟩

/-- The runs in which every message reaches everybody it should, once and unaltered, and
    nobody else, are those in which no step replaces a message that waits. -/
theorem delivered_iff {listenfd : Int} {users : Int → ClientData} {revents : Nat → Mask} {as : List Action} :
    Run (fun s e t => PlainStep s e t ∧ ¬ s.Spoils e) (start listenfd users revents) as t ↔
      Run (fun s e t => PlainStep s e t ∧ t.Faithful) (start listenfd users revents) as t := by
  refine @Run.congr _ _ PlainStep _ _ _ (fun s => s.Settled ∧ s.Faithful) _ _ ?_
    (fun s e t hs h => h.faithful_iff hs) ?_
  · exact fun s e t hs h hgood => ⟨hs.1.step h.1, (h.faithful_iff hs).mp hgood⟩
  · exact ⟨start_settled listenfd users revents, fun _ h => absurd h List.not_mem_nil,
      fun _ => List.prefix_rfl⟩

/-- Three clients come, and two of them send a message in the same pass. Then the third one
    can be written to. -/
def crossing : List Action :=
  let arrival : Action := .poll fun k => if k = 0 then pollIn else 0
  let idle : Action := .iterate ⟨none, .eof⟩
  [arrival, .iterate ⟨some 5, .eof⟩, idle, .finish,
    arrival, .iterate ⟨some 6, .eof⟩, idle, idle, .finish,
    arrival, .iterate ⟨some 7, .eof⟩, idle, idle, idle, .finish,
    .poll fun k => if k = 1 ∨ k = 2 then pollIn else 0,
    idle, .iterate ⟨none, .data [97]⟩, .iterate ⟨none, .data [98]⟩, idle, .finish,
    .poll fun k => if k = 0 then 0 else pollOut, idle, idle, idle, idle, .finish]

/-- The third client is sent the second message only. -/
theorem crossing_loses : ∃ t, Run PlainStep (start 3 (fun _ => ⟨none, []⟩) fun _ => 0) crossing t ∧
    t.room.clients = [5, 6, 7] ∧ t.due 7 = [[97], [98]] ∧ t.sent 7 = [[98]] ∧
    (t.room.users 7).writeBuf = none ∧ ¬ t.Faithful := by
  have hrun : ((crossing.foldlM step (start 3 (fun _ => ⟨none, []⟩) fun _ => 0)).map fun t =>
      (t.room.clients, t.due 7, t.sent 7, (t.room.users 7).writeBuf)) =
      some ([5, 6, 7], [[97], [98]], [[98]], none) := by
    decide +kernel
  obtain ⟨t, ht, heq⟩ := Option.map_eq_some_iff.mp hrun
  simp only [Prod.mk.injEq] at heq
  obtain ⟨hclients, hdue, hsent, hnone⟩ := heq
  refine ⟨t, (Run.of_foldlM (fun _ _ _ => step_sound) ht).and_labels ?_, hclients, hdue, hsent, hnone,
    fun hf => ?_⟩
  · simp [crossing, Action.NulFree]
  · have hothers := hf.others 7
    rw [hdue, hsent] at hothers
    exact absurd hothers (by decide)

end Chat

end Chatroom
