-- SUMMARY: The poll array holds the listening socket and the open clients, and a pass of the for loop examines every client once.
import LinuxLearning.Chatroom.Server
import Mathlib.Data.List.Count

/-!
# The slots

An iteration appends a slot, removes one, or leaves the descriptors alone, and only the
listening socket can be accepted from. So the clients in the slots are those accepted and
not closed, and what the loop has examined in a pass and what it has still to examine
make up the clients that were there when `poll` returned.
-/

namespace Chatroom

open Transition Segment

/-! ## Event masks -/

namespace Mask

variable {m n : Mask} {k : Nat}

theorem has_twoPow (hk : k < 16) : m.has (.twoPow 16 k) ↔ m.getLsbD k = true := by
  rw [has, BitVec.and_twoPow]
  cases m.getLsbD k with
  | false => simp
  | true => simpa using fun h => absurd (congrArg (BitVec.getLsbD · k) h) (by simp [hk])

theorem has_or_left (hk : k < 16) (h : m.has (.twoPow 16 k)) : (m ||| n).has (.twoPow 16 k) := by
  rw [has_twoPow hk] at h ⊢
  rw [BitVec.getLsbD_or, h, Bool.true_or]

theorem has_or_self (hk : k < 16) : (m ||| .twoPow 16 k).has (.twoPow 16 k) := by
  rw [has_twoPow hk]
  simp [hk]

end Mask

variable {events revents : Mask}

/-- What is reported was requested, unless it is an error, a hang-up or a bad descriptor. -/
theorem Reportable.requested (h : Reportable events revents) {k : Nat} (hk : k < 16)
    (hne : k ≠ 3 ∧ k ≠ 4 ∧ k ≠ 5) (hr : revents.has (.twoPow 16 k)) : events.has (.twoPow 16 k) := by
  rw [Mask.has_twoPow hk] at hr ⊢
  have hbit : ¬ events.getLsbD k = true → k = 3 ∨ k = 4 ∨ k = 5 := by
    simpa [hr, hk, pollErr, pollHup, pollNval, or_iff_not_imp_left] using congrArg (BitVec.getLsbD · k) h
  by_contra hevents
  have := hbit hevents
  omega

namespace Room

variable {r : Room} {i : Nat} {a : Answers} {connfd x y : Int} {d : List UInt8}

/-! ## What a slot is examined for -/

/-- The listening socket is asked for connections only, and the clients are others. -/
structure WellFormed (r : Room) : Prop where
  listen : (r.fds 0).fd = r.listenfd
  asked : (r.fds 0).events = pollIn ||| pollErr
  reported : Reportable (r.fds 0).events (r.fds 0).revents
  limit : r.userCounter ≤ userLimit
  nodup : r.clients.Nodup
  apart : r.listenfd ∉ r.clients

theorem mem_slotsFrom : x ∈ r.slotsFrom i ↔ ∃ k, (i ≤ k ∧ k < r.userCounter + 1) ∧ (r.fds k).fd = x :=
  mem_segment

theorem WellFormed.quiet (h : r.WellFormed) {k : Nat} (hk : k < 16) (hne : k ≠ 0 ∧ k ≠ 3 ∧ k ≠ 4 ∧ k ≠ 5) :
    ¬ (r.fds 0).revents.has (.twoPow 16 k) := by
  intro hr
  have hevents := h.reported.requested hk hne.2 hr
  rw [h.asked, Mask.has_twoPow hk] at hevents
  rw [BitVec.getLsbD_or, pollIn, pollErr, BitVec.getLsbD_twoPow, BitVec.getLsbD_twoPow] at hevents
  simp only [Bool.or_eq_true, Bool.and_eq_true, decide_eq_true_eq] at hevents
  omega

theorem WellFormed.hangsUp_pos (h : r.WellFormed) (hup : r.HangsUp i) : 1 ≤ i := by
  rcases Nat.eq_zero_or_pos i with rfl | hpos
  · exact absurd hup.2.2 (h.quiet (by decide) (by decide))
  · exact hpos

theorem WellFormed.reads_pos (h : r.WellFormed) (hreads : r.Reads i) : 1 ≤ i := by
  rcases Nat.eq_zero_or_pos i with rfl | hpos
  · exact absurd ⟨h.listen, hreads.2.2.2⟩ hreads.1
  · exact hpos

theorem WellFormed.writes_pos (h : r.WellFormed) (hout : (r.fds i).revents.has pollOut) : 1 ≤ i := by
  rcases Nat.eq_zero_or_pos i with rfl | hpos
  · exact absurd hout (h.quiet (by decide) (by decide))
  · exact hpos

theorem WellFormed.listens_zero (h : r.WellFormed) (hi : i < r.userCounter + 1) (hlisten : r.Listens i) :
    i = 0 := by
  rcases Nat.eq_zero_or_pos i with rfl | hpos
  · rfl
  · exact absurd (mem_slotsFrom.mpr ⟨i, ⟨hpos, hi⟩, hlisten.1⟩) h.apart

/-! ## The slots after an operation -/

theorem slotsFrom_congr (r r' : Room) (hn : r'.userCounter = r.userCounter)
    (h : ∀ k, (r'.fds k).fd = (r.fds k).fd) (i : Nat) : r'.slotsFrom i = r.slotsFrom i := by
  rw [slotsFrom, slotsFrom, hn]
  exact segment_congr fun k _ _ => h k

@[simp] theorem slotsFrom_fill : (r.fill x d).slotsFrom i = r.slotsFrom i := rfl

@[simp] theorem notify_fd {k : Nat} : ((r.notify x).fds k).fd = (r.fds k).fd := by
  unfold notify
  dsimp only
  split <;> rfl

@[simp] theorem slotsFrom_notify : (r.notify x).slotsFrom i = r.slotsFrom i :=
  slotsFrom_congr r (r.notify x) rfl (fun _ => notify_fd) i

@[simp] theorem wrote_fd {k : Nat} : ((r.wrote i).fds k).fd = (r.fds k).fd := by
  by_cases hk : k = i
  · subst hk
    simp [wrote]
  · simp [wrote, hk]

@[simp] theorem slotsFrom_wrote {j : Nat} : (r.wrote i).slotsFrom j = r.slotsFrom j :=
  slotsFrom_congr r (r.wrote i) rfl (fun _ => wrote_fd) j

theorem slotsFrom_addSlot (hi : i ≤ r.userCounter + 1) :
    (r.addSlot connfd).slotsFrom i = r.slotsFrom i ++ [connfd] := by
  rw [slotsFrom, slotsFrom, addSlot, segment_concat hi]
  congr 1
  · refine segment_congr fun k _ hk => ?_
    dsimp only
    rw [Function.update_of_ne hk.ne]
  · simp

theorem slotsFrom_cons (hi : i < r.userCounter + 1) : r.slotsFrom i = (r.fds i).fd :: r.slotsFrom (i + 1) :=
  segment_cons hi

/-- A removal takes the descriptor at the slot out, and moves the others at most. -/
theorem slotsFrom_removeSlot {j : Nat} (hj : j ≤ i) (hi : 1 ≤ i) (hn : i < r.userCounter + 1) :
    List.Perm (r.slotsFrom j) ((r.fds i).fd :: (r.removeSlot i).slotsFrom j) := by
  have hfds : (fun k => ((r.removeSlot i).fds k).fd) =
      Function.update (fun k => (r.fds k).fd) i (r.fds r.userCounter).fd := by
    funext k
    by_cases hk : k = i
    · subst hk
      simp [removeSlot]
    · simp [removeSlot, hk]
  have hcount : (r.removeSlot i).userCounter + 1 = r.userCounter := by
    show r.userCounter - 1 + 1 = r.userCounter
    omega
  rw [slotsFrom, slotsFrom, hfds, hcount]
  exact segment_remove hj (Nat.le_of_lt_succ hn)

/-! ## The operations keep the array well formed -/

/-- The slot of the listening socket is left alone. -/
theorem WellFormed.of_zero {r' : Room} (h : r.WellFormed) (hfd : r'.listenfd = r.listenfd)
    (hzero : r'.fds 0 = r.fds 0) (hlimit : r'.userCounter ≤ userLimit) (hnodup : r'.clients.Nodup)
    (hapart : r.listenfd ∉ r'.clients) : r'.WellFormed where
  listen := by rw [hzero, hfd, h.listen]
  asked := by rw [hzero, h.asked]
  reported := by
    rw [hzero]
    exact h.reported
  limit := hlimit
  nodup := hnodup
  apart := by rwa [hfd]

theorem WellFormed.of_same {r' : Room} (h : r.WellFormed) (hfd : r'.listenfd = r.listenfd)
    (hzero : r'.fds 0 = r.fds 0) (hn : r'.userCounter = r.userCounter) (hc : r'.clients = r.clients) :
    r'.WellFormed :=
  h.of_zero hfd hzero (hn ▸ h.limit) (hc ▸ h.nodup) (hc ▸ h.apart)

theorem WellFormed.fill (h : r.WellFormed) (x : Int) (d : List UInt8) : (r.fill x d).WellFormed :=
  h.of_same rfl rfl rfl rfl

theorem WellFormed.notify (h : r.WellFormed) (x : Int) : (r.notify x).WellFormed :=
  h.of_same rfl (by simp [Room.notify]) rfl slotsFrom_notify

theorem WellFormed.wrote (h : r.WellFormed) (hi : 1 ≤ i) : (r.wrote i).WellFormed :=
  h.of_same rfl (Function.update_of_ne (Nat.ne_of_lt hi) ..) rfl slotsFrom_wrote

theorem WellFormed.addSlot (h : r.WellFormed) (hlimit : r.userCounter < userLimit)
    (hne : connfd ≠ r.listenfd) (hnew : connfd ∉ r.clients) : (r.addSlot connfd).WellFormed := by
  have hzero : (r.addSlot connfd).fds 0 = r.fds 0 := by simp [Room.addSlot]
  have hclients : (r.addSlot connfd).clients = r.clients ++ [connfd] := slotsFrom_addSlot (Nat.le_add_left ..)
  refine h.of_zero rfl hzero hlimit ?_ ?_
  · rw [hclients, List.nodup_append_comm]
    exact List.nodup_cons.mpr ⟨hnew, h.nodup⟩
  · rw [hclients, List.mem_append, List.mem_singleton]
    rintro (hmem | heq)
    · exact h.apart hmem
    · exact hne heq.symm

theorem WellFormed.removeSlot (h : r.WellFormed) (hi : 1 ≤ i) (hn : i < r.userCounter + 1) :
    (r.removeSlot i).WellFormed := by
  have hzero : (r.removeSlot i).fds 0 = r.fds 0 := Function.update_of_ne (Nat.ne_of_lt hi) ..
  have hperm : List.Perm r.clients ((r.fds i).fd :: (r.removeSlot i).clients) :=
    slotsFrom_removeSlot hi hi hn
  refine h.of_zero rfl hzero ((Nat.sub_le ..).trans h.limit) ?_ ?_
  · exact (List.nodup_cons.mp (hperm.nodup_iff.mp h.nodup)).2
  · exact fun hmem => h.apart (hperm.mem_iff.mpr (List.mem_cons_of_mem _ hmem))

end Room

namespace Chat

variable {s t : Chat} {i : Nat} {a : Answers} {act : Action} {as : List Action}

/-! ## The invariant -/

/-- Where the loop stands. What is still to be examined lies in the slots from there on. -/
def Covered (s : Chat) : Prop :=
  match s.scan with
  | none => (∀ fd ∈ s.present, s.seen.count fd = 1) ∧ s.seen.length ≤ s.present.length + 2
  | some i =>
    (i = 0 → s.present = s.room.clients ∧ s.seen = []) ∧
    (∀ fd ∈ s.present, s.seen.count fd + (s.room.slotsFrom i).count fd = 1) ∧
    s.seen.length + (s.room.slotsFrom i).length ≤ s.present.length + 2

structure Kept (s : Chat) : Prop where
  room : s.room.WellFormed
  counted : ∀ fd, s.accepts fd = s.closes fd + s.room.clients.count fd
  covered : s.Covered

theorem Kept.not_client (hs : s.Kept) {fd : Int} (hclosed : s.accepts fd = s.closes fd) :
    fd ∉ s.room.clients := by
  rw [← List.count_eq_zero]
  have := hs.counted fd
  omega

/-- The slot examined is done with, whatever becomes of the others; only a new client may come. -/
theorem Covered.advance (hs : s.Covered) (hscan : s.scan = some i) {j : Nat} (new : List Int)
    (hperm : List.Perm (s.room.slotsFrom i ++ new) ((s.room.fds i).fd :: t.room.slotsFrom j))
    (hnew : ∀ fd ∈ new, fd ∉ s.present) (hfit : new = [] ∨ i = 0 ∧ new.length = 1)
    (hj : 0 < j) (hscan' : t.scan = some j) (hpresent : t.present = s.present)
    (hseen : t.seen = s.seen ++ [(s.room.fds i).fd]) : t.Covered := by
  rw [Covered, hscan] at hs
  obtain ⟨hfresh, hcount, hlength⟩ := hs
  rw [Covered, hscan']
  refine ⟨fun h => absurd h hj.ne', fun fd hfd => ?_, ?_⟩
  · rw [hpresent] at hfd
    have hc := hperm.count_eq fd
    rw [List.count_append, List.count_eq_zero.mpr fun h => hnew fd h hfd, List.count_cons] at hc
    rw [hseen, List.count_append, List.count_singleton]
    have := hcount fd hfd
    omega
  · have hl := hperm.length_eq
    rw [List.length_append, List.length_cons] at hl
    rw [hseen, hpresent, List.length_append, List.length_singleton]
    rcases hfit with rfl | ⟨rfl, hone⟩
    · rw [List.length_nil] at hl
      omega
    · obtain ⟨hp, hempty⟩ := hfresh rfl
      have hslots : (s.room.slotsFrom 0).length = s.present.length + 1 := by
        rw [hp, Room.clients, Room.slotsFrom_cons (Nat.succ_pos _), List.length_cons]
      rw [hempty, List.length_nil]
      omega

theorem Covered.next (hs : s.Covered) (hscan : s.scan = some i) {j : Nat}
    (hperm : List.Perm (s.room.slotsFrom i) ((s.room.fds i).fd :: t.room.slotsFrom j)) (hj : 0 < j)
    (hscan' : t.scan = some j) (hpresent : t.present = s.present)
    (hseen : t.seen = s.seen ++ [(s.room.fds i).fd]) : t.Covered :=
  hs.advance hscan [] (by rwa [List.append_nil]) (fun _ h => absurd h List.not_mem_nil) (.inl rfl) hj
    hscan' hpresent hseen

theorem Kept.counted_left (hs : s.Kept) (hpos : 1 ≤ i) (hi : i < s.room.userCounter + 1) (fd : Int) :
    s.accepts fd = Function.update s.closes (s.room.fds i).fd (s.closes (s.room.fds i).fd + 1) fd +
      (s.room.removeSlot i).clients.count fd := by
  have hc := (Room.slotsFrom_removeSlot hpos hpos hi).count_eq fd
  have := hs.counted fd
  rw [List.count_cons] at hc
  by_cases hfd : fd = (s.room.fds i).fd
  · subst hfd
    rw [Function.update_self]
    rw [beq_self_eq_true, if_pos rfl] at hc
    simp only [Room.clients] at this ⊢
    omega
  · have hbeq : ((s.room.fds i).fd == fd) = false := by simpa using Ne.symm hfd
    rw [Function.update_of_ne hfd]
    rw [hbeq] at hc
    simp only [Room.clients] at this ⊢
    simp at hc
    omega

theorem Kept.iterate (hs : s.Kept) (hscan : s.scan = some i) (hi : i < s.room.userCounter + 1)
    (hp : s.Possible a) : (s.iterate i a).Kept := by
  have hnext : List.Perm (s.room.slotsFrom i) ((s.room.fds i).fd :: s.room.slotsFrom (i + 1)) :=
    .of_eq (Room.slotsFrom_cons hi)
  have ho := s.room.examine_outcome i a
  unfold Chat.iterate
  generalize s.room.examine i a = q at ho
  cases ho with
  | silent _ _ =>
    exact ⟨hs.room, hs.counted, hs.covered.next hscan hnext i.succ_pos rfl rfl rfl⟩
  | @refused connfd hlisten haccept hfull =>
    refine ⟨hs.room, fun fd => ?_, hs.covered.next hscan hnext i.succ_pos rfl rfl rfl⟩
    have := hs.counted fd
    by_cases hfd : fd = connfd
    · subst hfd
      simp only [record, Function.update_self]
      omega
    · simpa only [record, Function.update_of_ne hfd] using this
  | @joined connfd hlisten haccept hroom =>
    obtain ⟨-, -, hne, hclosed⟩ := hp.accept _ haccept
    obtain rfl := hs.room.listens_zero hi hlisten
    have hnew : connfd ∉ s.room.clients := hs.not_client hclosed
    have hclients : (s.room.addSlot connfd).clients = s.room.clients ++ [connfd] :=
      Room.slotsFrom_addSlot (Nat.le_add_left ..)
    refine ⟨hs.room.addSlot hroom hne hnew, fun fd => ?_, ?_⟩
    · have := hs.counted fd
      rw [hclients, List.count_append, List.count_singleton]
      by_cases hfd : fd = connfd
      · subst hfd
        simp only [record, Function.update_self, beq_self_eq_true, if_true]
        omega
      · have hbeq : (connfd == fd) = false := by simpa using Ne.symm hfd
        simpa [record, hfd, hbeq] using this
    · -- the clients that were there when `poll` returned are still all there
      have hpresent : s.present = s.room.clients ∧ s.seen = [] := by
        have := hs.covered
        rw [Covered, hscan] at this
        exact this.1 rfl
      refine hs.covered.advance hscan [connfd] ?_ ?_ (.inr ⟨rfl, rfl⟩) Nat.one_pos rfl rfl rfl
      · rw [Room.slotsFrom_cons hi, List.cons_append]
        exact .of_eq (congrArg _ hclients.symm)
      · intro fd hfd
        rw [hpresent.1, List.mem_singleton.mp hfd]
        exact hnew
  | hungUp hup =>
    have hpos := hs.room.hangsUp_pos hup
    exact ⟨hs.room.removeSlot hpos hi, hs.counted_left hpos hi,
      hs.covered.next hscan (Room.slotsFrom_removeSlot le_rfl hpos hi) hpos rfl rfl rfl⟩
  | @received d hreads hrecv =>
    refine ⟨(hs.room.fill _ d).notify _, fun fd => ?_, ?_⟩
    · rw [Room.clients, Room.slotsFrom_notify]
      exact hs.counted fd
    · exact hs.covered.next hscan (by rwa [Room.slotsFrom_notify]) i.succ_pos rfl rfl rfl
  | emptied hreads hrecv =>
    exact ⟨hs.room.fill _ [], hs.counted,
      hs.covered.next hscan hnext i.succ_pos rfl rfl rfl⟩
  | failed hreads hrecv =>
    have hpos := hs.room.reads_pos hreads
    exact ⟨(hs.room.fill _ []).removeSlot hpos hi, hs.counted_left hpos hi,
      hs.covered.next hscan (Room.slotsFrom_removeSlot le_rfl hpos hi) hpos rfl rfl rfl⟩
  | sent hup hreads hout hlisten hw =>
    have hpos := hs.room.writes_pos hout
    refine ⟨hs.room.wrote hpos, fun fd => ?_, ?_⟩
    · rw [Room.clients, Room.slotsFrom_wrote]
      exact hs.counted fd
    · exact hs.covered.next hscan (by rwa [Room.slotsFrom_wrote]) i.succ_pos rfl rfl rfl

theorem Kept.polled (hs : s.Kept) {revents : Nat → Mask}
    (hr : Reportable (s.room.fds 0).events (revents 0)) : (s.polled revents).Kept := by
  have hfds : ∀ k, (((s.polled revents).room).fds k).fd = (s.room.fds k).fd := by
    intro k
    unfold Chat.polled
    dsimp only
    split <;> rfl
  have hslots : ∀ i, (s.polled revents).room.slotsFrom i = s.room.slotsFrom i :=
    Room.slotsFrom_congr s.room (s.polled revents).room rfl hfds
  refine ⟨⟨?_, ?_, ?_, hs.room.limit, ?_, ?_⟩, fun fd => ?_, ?_⟩
  · rw [hfds]
    exact hs.room.listen
  · simpa [Chat.polled] using hs.room.asked
  · simpa [Chat.polled] using hr
  · rw [Room.clients, hslots]
    exact hs.room.nodup
  · rw [Room.clients, hslots]
    exact hs.room.apart
  · rw [Room.clients, hslots]
    exact hs.counted fd
  · refine ⟨fun _ => ⟨?_, rfl⟩, fun fd hfd => ?_, ?_⟩
    · rw [Room.clients, hslots]
      rfl
    · -- a client sits in one slot, and not in slot 0
      have hfd' : fd ∈ s.room.clients := hfd
      have hne : (s.room.fds 0).fd ≠ fd := by
        rw [hs.room.listen]
        exact fun h => hs.room.apart (h ▸ hfd')
      rw [hslots, Room.slotsFrom_cons (Nat.succ_pos _), List.count_cons_of_ne hne]
      exact (Nat.zero_add _).trans (List.count_eq_one_of_mem hs.room.nodup hfd')
    · rw [hslots, Room.slotsFrom_cons (Nat.succ_pos _)]
      simp [Chat.polled, Room.clients]

theorem Kept.finish (hs : s.Kept) (hscan : s.scan = some i) (hi : ¬ i < s.room.userCounter + 1) :
    Kept { s with scan := none } := by
  have hcovered := hs.covered
  rw [Covered, hscan] at hcovered
  have hrest : s.room.slotsFrom i = [] := segment_nil (not_lt.mp hi)
  refine ⟨hs.room, hs.counted, fun fd hfd => ?_, ?_⟩
  · have := hcovered.2.1 fd hfd
    rwa [hrest, List.count_nil] at this
  · have := hcovered.2.2
    rwa [hrest, List.length_nil] at this

theorem Kept.step (hs : s.Kept) (h : Step s act t) : t.Kept := by
  cases h with
  | poll hscan hr => exact hs.polled (hr 0 (Nat.succ_pos _))
  | iterate hscan hi hp => exact hs.iterate hscan hi hp
  | finish hscan hi => exact hs.finish hscan hi

theorem start_kept (listenfd : Int) (users : Int → ClientData) (revents : Nat → Mask) :
    (start listenfd users revents).Kept where
  room := ⟨rfl, rfl, (by decide : Reportable (pollIn ||| pollErr) 0), Nat.zero_le _, List.nodup_nil,
    List.not_mem_nil⟩
  counted _ := rfl
  covered := ⟨fun _ h => absurd h List.not_mem_nil, Nat.zero_le _⟩

theorem Step.listenfd (h : Step s act t) : t.room.listenfd = s.room.listenfd := by
  cases h with
  | poll _ _ => rfl
  | iterate hscan hi hp =>
    rename_i i a
    have ho := s.room.examine_outcome i a
    unfold Chat.iterate
    generalize s.room.examine i a = q at ho
    cases ho <;> rfl
  | finish _ _ => rfl

/-! ## The room in every state of a run -/

/-- Slot 0 is the listening socket, the other slots hold each client that was accepted and
    not closed, once and no more than `USER_LIMIT`, nobody is closed twice, and a pass
    ends after examining every client that was there when `poll` returned, once. -/
theorem slots_kept {listenfd : Int} {users : Int → ClientData} {revents : Nat → Mask}
    (h : Run Step (start listenfd users revents) as t) :
    (t.room.fds 0).fd = listenfd ∧ t.room.clients.Nodup ∧
    (∀ fd, fd ∈ t.room.clients ↔ t.closes fd < t.accepts fd) ∧
    t.room.userCounter ≤ userLimit ∧
    (∀ fd, t.closes fd ≤ t.accepts fd ∧ t.accepts fd ≤ t.closes fd + 1) ∧
    (∀ fd ∈ t.present, t.seen.count fd ≤ 1 ∧ (t.scan = none → t.seen.count fd = 1)) ∧
    t.seen.length ≤ t.present.length + 2 := by
  have hkept : t.Kept := h.invariant (fun _ _ _ hs hstep => hs.step hstep) (start_kept listenfd users revents)
  have hfd : t.room.listenfd = listenfd :=
    h.invariant (I := fun s => s.room.listenfd = listenfd) (fun _ _ _ hs hstep => hstep.listenfd.trans hs) rfl
  have hcount := hkept.counted
  have hcovered := hkept.covered
  refine ⟨hkept.room.listen.trans hfd, hkept.room.nodup, fun fd => ?_, hkept.room.limit, fun fd => ?_,
    fun fd hmem => ?_, ?_⟩
  · rw [← List.count_pos_iff, hcount fd]
    omega
  · have := List.nodup_iff_count_le_one.mp hkept.room.nodup fd
    rw [hcount fd]
    omega
  · cases hscan : t.scan with
    | none =>
      rw [Covered, hscan] at hcovered
      have := hcovered.1 fd hmem
      exact ⟨this.le, fun _ => this⟩
    | some i =>
      rw [Covered, hscan] at hcovered
      have := hcovered.2.1 fd hmem
      exact ⟨by omega, fun hnone => by cases hnone⟩
  · cases hscan : t.scan with
    | none =>
      rw [Covered, hscan] at hcovered
      exact hcovered.2
    | some i =>
      rw [Covered, hscan] at hcovered
      exact (Nat.le_add_right ..).trans hcovered.2.2

/-- Two clients come, and the first one leaves while the second one, which moves into its
    slot in the same pass, has sent something. -/
def departure : List Action :=
  let arrival : Action := .poll fun k => if k = 0 then pollIn else 0
  [arrival, .iterate ⟨some 5, .eof⟩, .iterate ⟨none, .eof⟩, .finish,
    arrival, .iterate ⟨some 6, .eof⟩, .iterate ⟨none, .eof⟩, .iterate ⟨none, .eof⟩, .finish,
    .poll fun k => if k = 0 then 0 else if k = 1 then pollRdhup else pollIn,
    .iterate ⟨none, .eof⟩, .iterate ⟨none, .eof⟩, .iterate ⟨none, .data [104, 105]⟩, .finish]

theorem slots_kept_departure : ∃ t,
    departure.foldlM step (start 3 (fun _ => ⟨none, []⟩) fun _ => 0) = some t ∧
    t.room.clients = [6] ∧ t.present = [5, 6] ∧ t.seen = [3, 5, 6] ∧ (t.room.fds 0).fd = 3 ∧
    ∀ fd ∈ t.present, t.scan = none → t.seen.count fd = 1 := by
  have hrun : ((departure.foldlM step (start 3 (fun _ => ⟨none, []⟩) fun _ => 0)).map fun t =>
      (t.room.clients, t.present, t.seen)) = some ([6], [5, 6], [3, 5, 6]) := by
    decide +kernel
  obtain ⟨t, ht, heq⟩ := Option.map_eq_some_iff.mp hrun
  simp only [Prod.mk.injEq] at heq
  obtain ⟨hzero, -, -, -, -, hseen, -⟩ := slots_kept (Run.of_foldlM (fun _ _ _ => step_sound) ht)
  exact ⟨t, ht, heq.1, heq.2.1, heq.2.2, hzero, fun fd hfd => (hseen fd hfd).2⟩

end Chat

end Chatroom
