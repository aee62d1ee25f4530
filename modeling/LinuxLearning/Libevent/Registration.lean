-- SUMMARY: The event base in every run: who is in which queue, the counters of a descriptor, and what the backend has been told.
import LinuxLearning.Common.FlagWord
import LinuxLearning.Libevent.EventBase

/-!
# Registration

However often handlers are added, and whichever of the additions fail, a handler is listed once
at its descriptor, the counters are those of the list, and the backend watches the descriptor for
exactly what the handlers in the list want.
-/

namespace Libevent

open Memory Transition

/-- What a backend can be told to watch for. -/
def evIo : Flags := evRead ||| evWrite

def Handler.Inserted (ev : Handler) : Prop := ev.evFlags &&& evlistInserted ≠ 0

def Handler.Active (ev : Handler) : Prop := ev.evFlags &&& evlistActive ≠ 0

/-- The handler has only flags that there are. -/
def Handler.Within (ev : Handler) : Prop := ev.evFlags &&& ~~~evlistAll = 0

instance (ev : Handler) : Decidable ev.Active := inferInstanceAs (Decidable (_ ≠ _))

/-- The handler is in one more queue. -/
def Handler.insert (ev : Handler) (queue : Flags) : Handler :=
  { ev with evFlags := ev.evFlags ||| queue }

/-- The handler watches its descriptor for one of the flags. -/
def wants (handlers : Store Handler) (m : Flags) (p : Ptr) : Bool :=
  match handlers p with
  | some ev => ev.evEvents &&& m ≠ 0
  | none => false

/-- The handler is not one of Libevent's own. -/
def counted (handlers : Store Handler) (p : Ptr) : Bool :=
  match handlers p with
  | some ev => ~~~ev.evFlags &&& evlistInternal ≠ 0
  | none => false

/-- The slot of a descriptor, which is made when it is needed. -/
def EventBase.ctx (b : EventBase) (fd : Int) : EvmapIo :=
  (b.io fd).getD ⟨[], 0, 0⟩

def ioFlags (read write : Bool) : Flags :=
  (if read = true then evRead else 0) ||| (if write = true then evWrite else 0)

/-- What the counters of a slot stand for. -/
def EvmapIo.mask (ctx : EvmapIo) : Flags :=
  ioFlags (ctx.nread ≠ 0) (ctx.nwrite ≠ 0)

/-- The flags that a handler is the first one to want. -/
def first (ev : Handler) (ctx : EvmapIo) : Flags :=
  ioFlags (ev.evEvents &&& evRead ≠ 0 ∧ ctx.nread = 0) (ev.evEvents &&& evWrite ≠ 0 ∧ ctx.nwrite = 0)

/-- What the backend watches a descriptor for after these calls. -/
def told (evsel : List Watch) (fd : Int) : Flags :=
  (evsel.filter fun c => c.fd = fd).foldl (fun m c => m ||| (c.events &&& evIo)) 0

variable {b b' : EventBase} {handlers : Store Handler} {ctx : Int → EvmapIo} {evsel : List Watch} {p q : Ptr}
  {ev ev' : Handler} {fd : Int} {m queue : Flags} {o : Outcome}

theorem told_append (c : Watch) :
    told (evsel ++ [c]) fd = if c.fd = fd then told evsel fd ||| (c.events &&& evIo) else told evsel fd := by
  unfold told
  rw [List.filter_append, List.foldl_append]
  by_cases hfd : c.fd = fd <;> simp [hfd]

theorem wants_of_live (hp : handlers p = some ev) : wants handlers m p = (ev.evEvents &&& m ≠ 0 : Bool) := by
  simp only [wants, hp]

theorem counted_of_live (hp : handlers p = some ev) :
    counted handlers p = (~~~ev.evFlags &&& evlistInternal ≠ 0 : Bool) := by
  simp only [counted, hp]

/-- What a handler watches for does not depend on its flags. -/
theorem wants_update (hp : handlers p = some ev) (hevents : ev'.evEvents = ev.evEvents) :
    wants (Function.update handlers p (some ev')) m q = wants handlers m q := by
  by_cases hq : q = p
  · subst hq
    rw [wants_of_live (Function.update_self ..), wants_of_live hp, hevents]
  · unfold wants
    rw [Function.update_of_ne hq]

-- ---------------------------------------------------------------------------
-- The map of the I/O events
-- ---------------------------------------------------------------------------

/-- The lists of the descriptors hold the registered handlers, and the counters count them. -/
structure Tables (handlers : Store Handler) (ctx : Int → EvmapIo) : Prop where
  nodup : ∀ fd, (ctx fd).events.Nodup
  mem : ∀ fd p, p ∈ (ctx fd).events ↔
    0 ≤ fd ∧ ∃ ev, handlers p = some ev ∧ ev.evFd = fd ∧ ev.evEvents &&& evIo ≠ 0 ∧ ev.Inserted
  nread : ∀ fd, (ctx fd).nread.toNat = (ctx fd).events.countP (wants handlers evRead)
  nwrite : ∀ fd, (ctx fd).nwrite.toNat = (ctx fd).events.countP (wants handlers evWrite)

theorem Tables.live (h : Tables handlers ctx) (hp : p ∈ (ctx fd).events) : ∃ ev, handlers p = some ev := by
  obtain ⟨-, ev, hev, -⟩ := (h.mem fd p).mp hp
  exact ⟨ev, hev⟩

/-- A new handler is in no list. -/
theorem Tables.assign (h : Tables handlers ctx) (hp : handlers p = none) (hnew : ¬ ev.Inserted) :
    Tables (Function.update handlers p (some ev)) ctx := by
  have hne : ∀ {q w}, handlers q = some w → q ≠ p := by
    rintro q w hq rfl
    rw [hp] at hq
    cases hq
  have hwants : ∀ fd m, (ctx fd).events.countP (wants (Function.update handlers p (some ev)) m) =
      (ctx fd).events.countP (wants handlers m) := by
    intro fd m
    apply List.countP_congr
    intro q hq
    obtain ⟨w, hw⟩ := h.live hq
    unfold wants
    rw [Function.update_of_ne (hne hw)]
  refine ⟨h.nodup, fun fd q => ?_, fun fd => ?_, fun fd => ?_⟩
  · by_cases hq : q = p
    · subst hq
      refine iff_of_false (fun hmem => ?_) ?_
      · obtain ⟨w, hw⟩ := h.live hmem
        exact hne hw rfl
      · rintro ⟨-, w, hw, -, -, hins⟩
        rw [Function.update_self] at hw
        cases hw
        exact hnew hins
    · rw [h.mem, Function.update_of_ne hq]
  · rw [hwants, h.nread]
  · rw [hwants, h.nwrite]

/-- The flags of a handler change that is not put into a list. -/
theorem Tables.setFlags (h : Tables handlers ctx) (hp : handlers p = some ev) (hfd : ev'.evFd = ev.evFd)
    (hevents : ev'.evEvents = ev.evEvents)
    (hins : 0 ≤ ev.evFd → ev.evEvents &&& evIo ≠ 0 → (ev'.Inserted ↔ ev.Inserted)) :
    Tables (Function.update handlers p (some ev')) ctx := by
  have hwants : ∀ m, wants (Function.update handlers p (some ev')) m = wants handlers m :=
    fun m => funext fun q => wants_update hp hevents
  refine ⟨h.nodup, fun fd q => ?_, fun fd => ?_, fun fd => ?_⟩
  · rw [h.mem]
    refine and_congr_right fun hpos => ?_
    by_cases hq : q = p
    · subst hq
      simp only [Function.update_self, hp, Option.some.injEq, exists_eq_left', hfd, hevents]
      refine and_congr_right ?_
      rintro rfl
      exact and_congr_right fun hio => (hins hpos hio).symm
    · rw [Function.update_of_ne hq]
  · rw [hwants, h.nread]
  · rw [hwants, h.nwrite]

/-- One more handler on a counter. -/
def count (ev : Handler) (m : Flags) (n : UInt16) : Nat :=
  if ev.evEvents &&& m ≠ 0 then n.toNat + 1 else n.toNat

theorem countP_append_wants (hp : handlers p = some ev) (events : List Ptr) {n : UInt16}
    (hn : n.toNat = events.countP (wants handlers m)) :
    (events ++ [p]).countP (wants handlers m) = count ev m n := by
  rw [List.countP_append, List.countP_singleton, wants_of_live hp, ← hn, count]
  by_cases hm : ev.evEvents &&& m ≠ 0
  · rw [if_pos hm, if_pos (decide_eq_true hm)]
  · rw [if_neg hm, if_neg (by rw [decide_eq_false hm]; decide), Nat.add_zero]

/-- A handler is put into the list of its descriptor, and is a registered one. -/
theorem Tables.add (h : Tables handlers ctx) (hp : handlers p = some ev) (hpos : 0 ≤ ev.evFd)
    (hio : ev.evEvents &&& evIo ≠ 0) (hnew : ¬ ev.Inserted) (hins : ev'.Inserted) (hfd : ev'.evFd = ev.evFd)
    (hevents : ev'.evEvents = ev.evEvents) {nread nwrite : UInt16}
    (hread : nread.toNat = count ev evRead (ctx ev.evFd).nread)
    (hwrite : nwrite.toNat = count ev evWrite (ctx ev.evFd).nwrite) :
    Tables (Function.update handlers p (some ev'))
      (Function.update ctx ev.evFd ⟨(ctx ev.evFd).events ++ [p], nread, nwrite⟩) := by
  have hwants : ∀ m, wants (Function.update handlers p (some ev')) m = wants handlers m :=
    fun m => funext fun q => wants_update hp hevents
  have hfresh : ∀ fd, p ∉ (ctx fd).events := by
    intro fd hmem
    obtain ⟨-, w, hw, -, -, hwi⟩ := (h.mem fd p).mp hmem
    obtain rfl := Option.some.inj (hp.symm.trans hw)
    exact hnew hwi
  have hmem : ∀ fd q, q ≠ p → (q ∈ (ctx fd).events ↔ 0 ≤ fd ∧ ∃ w,
      Function.update handlers p (some ev') q = some w ∧ w.evFd = fd ∧ w.evEvents &&& evIo ≠ 0 ∧ w.Inserted) := by
    intro fd q hq
    rw [h.mem, Function.update_of_ne hq]
  refine ⟨fun fd => ?_, fun fd q => ?_, fun fd => ?_, fun fd => ?_⟩
  · by_cases heq : fd = ev.evFd
    · subst heq
      rw [Function.update_self, ← List.concat_eq_append, List.nodup_concat]
      exact ⟨hfresh _, h.nodup _⟩
    · rw [Function.update_of_ne heq]
      exact h.nodup fd
  · by_cases hq : q = p
    · subst hq
      simp only [Function.update_self, Option.some.injEq, exists_eq_left', hfd, hevents]
      by_cases heq : fd = ev.evFd
      · subst heq
        rw [Function.update_self]
        exact iff_of_true (List.mem_append_right _ List.mem_cons_self) ⟨hpos, rfl, hio, hins⟩
      · rw [Function.update_of_ne heq]
        exact iff_of_false (hfresh fd) fun hall => heq hall.2.1.symm
    · by_cases heq : fd = ev.evFd
      · subst heq
        rw [Function.update_self, List.mem_append, List.mem_singleton, or_iff_left hq]
        exact hmem _ q hq
      · rw [Function.update_of_ne heq]
        exact hmem fd q hq
  · rw [hwants]
    by_cases heq : fd = ev.evFd
    · subst heq
      rw [Function.update_self, hread, countP_append_wants hp _ (h.nread _)]
    · rw [Function.update_of_ne heq]
      exact h.nread fd
  · rw [hwants]
    by_cases heq : fd = ev.evFd
    · subst heq
      rw [Function.update_self, hwrite, countP_append_wants hp _ (h.nwrite _)]
    · rw [Function.update_of_ne heq]
      exact h.nwrite fd

-- ---------------------------------------------------------------------------
-- The backend
-- ---------------------------------------------------------------------------

/-- The backend watches for what the counters say, it was told of a flag once, and what it was
    told of before. -/
structure Backend (evsel : List Watch) (ctx : Int → EvmapIo) : Prop where
  told : ∀ fd, told evsel fd = (ctx fd).mask
  calls : ∀ pre c post, evsel = pre ++ c :: post →
    c.old = Libevent.told pre c.fd ∧ c.events &&& evIo ≠ 0 ∧ c.events &&& c.old = 0

theorem ioFlags_or : ∀ r w r' w', ioFlags r w ||| ioFlags r' w' = ioFlags (r || r') (w || w') := by
  decide

theorem ioFlags_disjoint : ∀ r w r' w', (r && r') = false → (w && w') = false → ioFlags r w &&& ioFlags r' w' = 0 := by
  decide

theorem ioFlags_le : ∀ r w, ioFlags r w &&& evIo = ioFlags r w := by
  decide

theorem ioFlags_of_ite (r w : Prop) [Decidable r] [Decidable w] :
    ((if r then evRead else 0) ||| (if w then evWrite else 0)) = ioFlags (decide r) (decide w) := by
  simp only [ioFlags, decide_eq_true_eq]

theorem count_eq_zero {n n' : UInt16} (h : n'.toNat = count ev m n) : n' = 0 ↔ ev.evEvents &&& m = 0 ∧ n = 0 := by
  rw [← UInt16.toNat_inj, h, ← UInt16.toNat_inj, count]
  by_cases hm : ev.evEvents &&& m ≠ 0
  · rw [if_pos hm]
    exact iff_of_false (Nat.succ_ne_zero _) fun hall => hm hall.1
  · rw [if_neg hm]
    exact (and_iff_right (not_not.mp hm)).symm

/-- A counter is positive if it was, or if it is now for the first time. -/
theorem count_ne_zero {n n' : UInt16} (h : n'.toNat = count ev m n) :
    decide (n' ≠ 0) = (decide (n ≠ 0) || decide (ev.evEvents &&& m ≠ 0 ∧ n = 0)) := by
  rw [Bool.eq_iff_iff, Bool.or_eq_true, decide_eq_true_iff, decide_eq_true_iff, decide_eq_true_iff, ne_eq,
    count_eq_zero h]
  tauto

/-- The mask of a slot grows by the flags that are wanted for the first time. -/
theorem mask_add {c : EvmapIo} {nread nwrite : UInt16} (hread : nread.toNat = count ev evRead c.nread)
    (hwrite : nwrite.toNat = count ev evWrite c.nwrite) (events : List Ptr) :
    (⟨events, nread, nwrite⟩ : EvmapIo).mask = c.mask ||| first ev c := by
  rw [EvmapIo.mask, EvmapIo.mask, first, ioFlags_or, count_ne_zero hread, count_ne_zero hwrite]

theorem first_disjoint (c : EvmapIo) : first ev c &&& c.mask = 0 := by
  apply ioFlags_disjoint
  · simp
  · simp

/-- The backend is told what it does not know yet. -/
theorem Backend.add (h : Backend evsel ctx) {nread nwrite : UInt16}
    (hread : nread.toNat = count ev evRead (ctx fd).nread) (hwrite : nwrite.toNat = count ev evWrite (ctx fd).nwrite)
    (events : List Ptr) (hfirst : first ev (ctx fd) ≠ 0) :
    Backend (evsel ++ [⟨fd, (ctx fd).mask, (ev.evEvents &&& evEt) ||| first ev (ctx fd)⟩])
      (Function.update ctx fd ⟨events, nread, nwrite⟩) := by
  have hle : first ev (ctx fd) &&& evIo = first ev (ctx fd) := ioFlags_le ..
  have hio : ((ev.evEvents &&& evEt) ||| first ev (ctx fd)) &&& evIo = first ev (ctx fd) := by
    have het : evEt &&& evIo = 0 := by decide
    rw [BitVec.or_comm, FlagWord.or_and_of_disjoint (by rw [BitVec.and_assoc, het]; simp), hle]
  refine ⟨fun fd' => ?_, ?_⟩
  · rw [told_append, hio, h.told]
    by_cases hfd : fd = fd'
    · subst hfd
      rw [if_pos rfl, Function.update_self, mask_add hread hwrite]
    · rw [if_neg hfd, Function.update_of_ne (Ne.symm hfd)]
  · refine forall_split_append h.calls fun before c after heq => ?_
    cases before with
    | nil =>
      obtain ⟨rfl, -⟩ := List.cons.inj heq
      rw [List.append_nil, hio]
      refine ⟨(h.told fd).symm, hfirst, ?_⟩
      have het : evEt &&& (ctx fd).mask = 0 := by
        rw [EvmapIo.mask, ← ioFlags_le, ← BitVec.and_assoc, BitVec.and_comm evEt, BitVec.and_assoc]
        have hdisjoint : evEt &&& evIo = 0 := by decide
        rw [hdisjoint]
        simp
      rw [BitVec.or_comm, FlagWord.or_and_of_disjoint (by rw [BitVec.and_assoc, het]; simp)]
      exact first_disjoint _
    | cons x before => simp at heq

theorem Backend.keep (h : Backend evsel ctx) {nread nwrite : UInt16}
    (hread : nread.toNat = count ev evRead (ctx fd).nread) (hwrite : nwrite.toNat = count ev evWrite (ctx fd).nwrite)
    (events : List Ptr) (hfirst : first ev (ctx fd) = 0) :
    Backend evsel (Function.update ctx fd ⟨events, nread, nwrite⟩) := by
  refine ⟨fun fd' => ?_, h.calls⟩
  rw [h.told]
  by_cases hfd : fd = fd'
  · subst hfd
    rw [Function.update_self, mask_add hread hwrite, hfirst]
    simp
  · rw [Function.update_of_ne (Ne.symm hfd)]

-- ---------------------------------------------------------------------------
-- The queues
-- ---------------------------------------------------------------------------

/-- The queues hold the handlers whose flags say so, and the base counts them. -/
structure Queues (b : EventBase) : Prop where
  priority : ∀ p ev, b.handlers p = some ev → ev.evPri < b.activequeue.length
  nodup : b.eventqueue.Nodup
  inserted : ∀ p, p ∈ b.eventqueue ↔ ∃ ev, b.handlers p = some ev ∧ ev.Inserted
  active : ∀ pri q, b.activequeue[pri]? = some q →
    q.Nodup ∧ ∀ p, p ∈ q ↔ ∃ ev, b.handlers p = some ev ∧ ev.Active ∧ ev.evPri = pri
  count : b.eventCount = b.eventqueue.countP (counted b.handlers) + b.activequeue.flatten.countP (counted b.handlers)
  countActive : b.eventCountActive = b.activequeue.flatten.length

theorem countP_flatten_set {f : Ptr → Bool} {l : List (List Ptr)} {i : Nat} {q : List Ptr} (h : l[i]? = some q)
    (p : Ptr) : (l.set i (q ++ [p])).flatten.countP f = l.flatten.countP f + (f p).toNat := by
  induction l generalizing i with
  | nil => cases h
  | cons x l ih =>
    cases i with
    | zero =>
      cases h
      simp only [List.set_cons_zero, List.flatten_cons, List.countP_append, List.countP_singleton]
      cases f p
      · simp
      · simp only [if_pos, Bool.toNat_true]
        omega
    | succ i =>
      simp only [List.set_cons_succ, List.flatten_cons, List.countP_append, ih h]
      omega

theorem length_flatten_set {l : List (List Ptr)} {i : Nat} {q : List Ptr} (h : l[i]? = some q)
    (p : Ptr) : (l.set i (q ++ [p])).flatten.length = l.flatten.length + 1 := by
  have hcount := countP_flatten_set (f := fun _ => true) h p
  simpa using hcount

/-- A flag of a queue makes no handler one of Libevent's own. -/
theorem counted_insert (hp : handlers p = some ev) (hqueue : queue &&& evlistInternal = 0) :
    counted (Function.update handlers p (some (ev.insert queue))) = counted handlers := by
  funext q
  by_cases hq : q = p
  · subst hq
    have hkeep : ~~~queue &&& evlistInternal = evlistInternal := by
      rw [BitVec.and_comm]
      exact FlagWord.and_not_of_disjoint (by rw [BitVec.and_comm, hqueue])
    rw [counted_of_live (Function.update_self ..), counted_of_live hp, Handler.insert, BitVec.not_or, BitVec.and_assoc,
      hkeep]
  · unfold counted
    rw [Function.update_of_ne hq]

/-- What a new handler is in no queue for does not count. -/
theorem counted_assign {l : List Ptr} (hp : handlers p = none) (hl : p ∉ l) :
    l.countP (counted (Function.update handlers p (some ev))) = l.countP (counted handlers) := by
  apply List.countP_congr
  intro q hq
  have hne : q ≠ p := by
    rintro rfl
    exact hl hq
  unfold counted
  rw [Function.update_of_ne hne]

theorem exists_update_iff {P : Handler → Prop} (hp : handlers p = none) (hP : ¬ P ev) :
    (∃ w, Function.update handlers p (some ev) q = some w ∧ P w) ↔ ∃ w, handlers q = some w ∧ P w := by
  by_cases hq : q = p
  · subst hq
    simp [hp, hP]
  · rw [Function.update_of_ne hq]

theorem exists_insert_iff {P : Handler → Prop} (hp : handlers p = some ev) (hP : P (ev.insert queue) ↔ P ev) :
    (∃ w, Function.update handlers p (some (ev.insert queue)) q = some w ∧ P w) ↔ ∃ w, handlers q = some w ∧ P w := by
  by_cases hq : q = p
  · subst hq
    simp [hp, hP]
  · rw [Function.update_of_ne hq]

theorem Queues.assign (h : Queues b) (hp : b.handlers p = none) (hins : ¬ ev.Inserted) (hact : ¬ ev.Active)
    (hpri : ev.evPri < b.activequeue.length) :
    Queues { b with handlers := Function.update b.handlers p (some ev) } where
  priority q w hw := by
    by_cases hq : q = p
    · subst hq
      simp only [Function.update_self, Option.some.injEq] at hw
      exact hw ▸ hpri
    · simp only [Function.update_of_ne hq] at hw
      exact h.priority q w hw
  nodup := h.nodup
  inserted q := (h.inserted q).trans (exists_update_iff hp hins).symm
  active pri l hl :=
    ⟨(h.active pri l hl).1, fun q => ((h.active pri l hl).2 q).trans
      (exists_update_iff (P := fun w => w.Active ∧ w.evPri = pri) hp fun hw => hact hw.1).symm⟩
  count := by
    have hqueue : p ∉ b.eventqueue := by
      rw [h.inserted]
      rintro ⟨w, hw, -⟩
      rw [hp] at hw
      cases hw
    have hactive : p ∉ b.activequeue.flatten := by
      rw [List.mem_flatten]
      rintro ⟨l, hl, hmem⟩
      obtain ⟨pri, hpri⟩ := List.getElem?_of_mem hl
      obtain ⟨w, hw, -⟩ := ((h.active pri l hpri).2 p).mp hmem
      rw [hp] at hw
      cases hw
    simp only [counted_assign hp hqueue, counted_assign hp hactive]
    exact h.count
  countActive := h.countActive

/-- The handler in one more queue, and the number of handlers of the base. -/
def EventBase.enqueue (b : EventBase) (p : Ptr) (ev : Handler) (queue : Flags) : EventBase :=
  { b with
    handlers := Function.update b.handlers p (some (ev.insert queue))
    eventCount := b.eventCount + (counted b.handlers p).toNat }

theorem eventQueueInsert_inserted (hp : b.handlers p = some ev) (hnew : ¬ ev.Inserted) :
    b.eventQueueInsert p evlistInserted =
      .ok (some { b.enqueue p ev evlistInserted with eventqueue := b.eventqueue ++ [p] }) := by
  have hflag : ¬ ev.evFlags &&& evlistInserted ≠ 0 := hnew
  rw [EventBase.eventQueueInsert, deref_of_live hp, ok_bind, if_neg hflag, EventBase.enqueue, counted_of_live hp]
  by_cases hown : ~~~ev.evFlags &&& evlistInternal ≠ 0
  · simp only [if_pos hown, modify_of_live hp, decide_eq_true hown]
    rfl
  · simp only [if_neg hown, modify_of_live hp, decide_eq_false hown]
    rfl

theorem eventQueueInsert_again (hp : b.handlers p = some ev) (hact : ev.Active) :
    b.eventQueueInsert p evlistActive = .ok (some b) := by
  have hflag : ev.evFlags &&& evlistActive ≠ 0 := hact
  rw [EventBase.eventQueueInsert, deref_of_live hp, ok_bind, if_pos hflag]
  rfl

theorem eventQueueInsert_active (hp : b.handlers p = some ev) (hnew : ¬ ev.Active) {l : List Ptr}
    (hpri : b.activequeue[ev.evPri]? = some l) :
    b.eventQueueInsert p evlistActive = .ok (some { b.enqueue p ev evlistActive with
      eventCountActive := b.eventCountActive + 1
      activequeue := b.activequeue.set ev.evPri (l ++ [p]) }) := by
  have hflag : ¬ ev.evFlags &&& evlistActive ≠ 0 := hnew
  rw [EventBase.eventQueueInsert, deref_of_live hp, ok_bind, if_neg hflag, EventBase.enqueue, counted_of_live hp]
  by_cases hown : ~~~ev.evFlags &&& evlistInternal ≠ 0
  · simp only [if_pos hown, modify_of_live hp, decide_eq_true hown, hpri, ok_bind]
    rfl
  · simp only [if_neg hown, modify_of_live hp, decide_eq_false hown, hpri, ok_bind]
    rfl

theorem insert_within (h : ev.Within) (hqueue : queue &&& ~~~evlistAll = 0) : (ev.insert queue).Within :=
  FlagWord.or_and_eq_zero.mpr ⟨h, hqueue⟩

theorem within_update (h : ∀ q w, handlers q = some w → w.Within) (hev : ev.Within) :
    ∀ q w, Function.update handlers p (some ev) q = some w → w.Within := by
  intro q w hw
  by_cases hq : q = p
  · subst hq
    rw [Function.update_self] at hw
    exact Option.some.inj hw ▸ hev
  · rw [Function.update_of_ne hq] at hw
    exact h q w hw

theorem insert_inserted : (ev.insert evlistInserted).Inserted := by
  unfold Handler.Inserted Handler.insert
  intro hzero
  rw [FlagWord.or_and_eq_zero] at hzero
  exact absurd hzero.2 (by decide)

theorem insert_active : (ev.insert evlistActive).Active := by
  unfold Handler.Active Handler.insert
  intro hzero
  rw [FlagWord.or_and_eq_zero] at hzero
  exact absurd hzero.2 (by decide)

theorem active_insert_inserted : (ev.insert evlistInserted).Active ↔ ev.Active := by
  have hdisjoint : evlistInserted &&& evlistActive = 0 := by decide
  rw [Handler.Active, Handler.insert, FlagWord.or_and_of_disjoint hdisjoint, Handler.Active]

theorem inserted_insert_active : (ev.insert evlistActive).Inserted ↔ ev.Inserted := by
  have hdisjoint : evlistActive &&& evlistInserted = 0 := by decide
  rw [Handler.Inserted, Handler.insert, FlagWord.or_and_of_disjoint hdisjoint, Handler.Inserted]

theorem Queues.register (h : Queues b) (hp : b.handlers p = some ev) (hnew : ¬ ev.Inserted) :
    Queues { b.enqueue p ev evlistInserted with eventqueue := b.eventqueue ++ [p] } where
  priority q w hw := by
    by_cases hq : q = p
    · subst hq
      simp only [EventBase.enqueue, Function.update_self, Option.some.injEq] at hw
      subst hw
      exact h.priority q ev hp
    · simp only [EventBase.enqueue, Function.update_of_ne hq] at hw
      exact h.priority q w hw
  nodup := by
    rw [← List.concat_eq_append, List.nodup_concat]
    refine ⟨fun hmem => ?_, h.nodup⟩
    obtain ⟨w, hw, hins⟩ := (h.inserted p).mp hmem
    obtain rfl := Option.some.inj (hp.symm.trans hw)
    exact hnew hins
  inserted q := by
    by_cases hq : q = p
    · subst hq
      refine iff_of_true (List.mem_append_right _ List.mem_cons_self) ⟨_, Function.update_self .., insert_inserted⟩
    · simp only [EventBase.enqueue, Function.update_of_ne hq, List.mem_append, List.mem_singleton, or_iff_left hq]
      exact h.inserted q
  active pri l hl :=
    ⟨(h.active pri l hl).1, fun q => ((h.active pri l hl).2 q).trans
      (exists_insert_iff (P := fun w => w.Active ∧ w.evPri = pri) hp (and_congr_left fun _ => active_insert_inserted)).symm⟩
  count := by
    have hcounted : counted (b.enqueue p ev evlistInserted).handlers = counted b.handlers :=
      counted_insert hp (by decide)
    simp only [hcounted, List.countP_append, List.countP_singleton]
    simp only [EventBase.enqueue, h.count]
    cases counted b.handlers p
    · simp
    · simp only [if_pos, Bool.toNat_true]
      omega
  countActive := h.countActive

theorem Queues.activate (h : Queues b) (hp : b.handlers p = some ev) (hnew : ¬ ev.Active) {l : List Ptr}
    (hpri : b.activequeue[ev.evPri]? = some l) :
    Queues { b.enqueue p ev evlistActive with
      eventCountActive := b.eventCountActive + 1
      activequeue := b.activequeue.set ev.evPri (l ++ [p]) } where
  priority q w hw := by
    rw [List.length_set]
    by_cases hq : q = p
    · subst hq
      simp only [EventBase.enqueue, Function.update_self, Option.some.injEq] at hw
      subst hw
      exact h.priority q ev hp
    · simp only [EventBase.enqueue, Function.update_of_ne hq] at hw
      exact h.priority q w hw
  nodup := h.nodup
  inserted q := (h.inserted q).trans (exists_insert_iff hp inserted_insert_active).symm
  active pri l' hl' := by
    obtain ⟨hnodup, hmem⟩ := h.active ev.evPri l hpri
    have hother : ∀ {pri q}, q ≠ p → ((∃ w, b.handlers q = some w ∧ w.Active ∧ w.evPri = pri) ↔
        ∃ w, Function.update b.handlers p (some (ev.insert evlistActive)) q = some w ∧ w.Active ∧ w.evPri = pri) := by
      intro pri q hq
      rw [Function.update_of_ne hq]
    by_cases hpe : ev.evPri = pri
    · subst hpe
      rw [List.getElem?_set_self (List.getElem?_eq_some_iff.mp hpri).1, Option.some.injEq] at hl'
      subst hl'
      constructor
      · rw [← List.concat_eq_append, List.nodup_concat]
        refine ⟨fun hin => ?_, hnodup⟩
        obtain ⟨w, hw, hact, -⟩ := (hmem p).mp hin
        obtain rfl := Option.some.inj (hp.symm.trans hw)
        exact hnew hact
      · intro q
        by_cases hq : q = p
        · subst hq
          exact iff_of_true (List.mem_append_right _ List.mem_cons_self) ⟨_, Function.update_self .., insert_active, rfl⟩
        · rw [List.mem_append, List.mem_singleton, or_iff_left hq, hmem]
          exact hother hq
    · rw [List.getElem?_set_ne hpe] at hl'
      obtain ⟨hnodup', hmem'⟩ := h.active pri l' hl'
      refine ⟨hnodup', fun q => ?_⟩
      by_cases hq : q = p
      · subst hq
        refine (hmem' q).trans (iff_of_false ?_ ?_)
        · rintro ⟨w, hw, hact, -⟩
          obtain rfl := Option.some.inj (hp.symm.trans hw)
          exact hnew hact
        · rintro ⟨w, hw, -, hwp⟩
          simp only [EventBase.enqueue, Function.update_self, Option.some.injEq] at hw
          subst hw
          exact hpe hwp
      · exact (hmem' q).trans (hother hq)
  count := by
    have hcounted : counted (b.enqueue p ev evlistActive).handlers = counted b.handlers :=
      counted_insert hp (by decide)
    simp only [hcounted, countP_flatten_set hpri]
    simp only [EventBase.enqueue, h.count]
    omega
  countActive := by
    simp only [length_flatten_set hpri, h.countActive]

-- ---------------------------------------------------------------------------
-- Additions
-- ---------------------------------------------------------------------------

/-- What `evmap_io_add` changes: the size of the map, its slots, and what the backend is told. -/
def EventBase.setIo (b : EventBase) (n : Int) (io : Int → Option EvmapIo) (evsel : List Watch) : EventBase :=
  { b with nentries := n, io := io, evsel := evsel }

theorem getIoSlot_some {c : EvmapIo} (hslot : b.getIoSlot fd o = some (b', c)) :
    ∃ io, b' = b.setIo b.nentries io b.evsel ∧ b'.ctx = b.ctx ∧ c = b.ctx fd := by
  unfold EventBase.getIoSlot at hslot
  split at hslot
  · rename_i c' hc
    cases hslot
    exact ⟨b.io, rfl, rfl, by simp [EventBase.ctx, hc]⟩
  · rename_i hc
    split at hslot
    · cases hslot
      refine ⟨_, rfl, funext fun fd' => ?_, by simp [EventBase.ctx, hc]⟩
      by_cases hfd : fd' = fd
      · subst hfd
        simp [EventBase.ctx, hc]
      · simp [EventBase.ctx, Function.update_of_ne hfd]
    · cases hslot

/-- Either nothing that counts changes, or the handler is appended, and the backend told if need be. -/
def Added (b : EventBase) (p : Ptr) (ev : Handler) (b' : EventBase) (res : Int) : Prop :=
  ∃ n io evsel, b' = b.setIo n io evsel ∧
    ((evsel = b.evsel ∧ b'.ctx = b.ctx ∧ (res = -1 ∨ ev.evFd < 0)) ∨
      (0 ≤ ev.evFd ∧ res ≠ -1 ∧ Backend evsel b'.ctx ∧ ∃ nread nwrite : UInt16,
        nread.toNat = count ev evRead (b.ctx ev.evFd).nread ∧ nwrite.toNat = count ev evWrite (b.ctx ev.evFd).nwrite ∧
        b'.ctx = Function.update b.ctx ev.evFd ⟨(b.ctx ev.evFd).events ++ [p], nread, nwrite⟩))

theorem count_eq_one {n : UInt16} : ev.evEvents &&& m ≠ 0 ∧ count ev m n = 1 ↔ ev.evEvents &&& m ≠ 0 ∧ n = 0 := by
  refine and_congr_right fun hm => ?_
  rw [count, if_pos hm, ← UInt16.toNat_inj]
  exact Nat.succ_inj

/-- `ioAdd` by what the slot stands for. -/
theorem ioAdd_eq {c : EvmapIo} : b.ioAdd fd p ev c o =
    if 0xffff < count ev evRead c.nread ∨ 0xffff < count ev evWrite c.nwrite then (b, -1)
    else if first ev c ≠ 0 ∧ o.add = false then (b, -1)
    else
      let io := Function.update b.io fd
        (some ⟨c.events ++ [p], .ofNat (count ev evRead c.nread), .ofNat (count ev evWrite c.nwrite)⟩)
      if first ev c ≠ 0 then
        (b.setIo b.nentries io (b.evsel ++ [⟨fd, c.mask, (ev.evEvents &&& evEt) ||| first ev c⟩]), 1)
      else (b.setIo b.nentries io b.evsel, 0) := by
  have hfirst : first ev c = (if ev.evEvents &&& evRead ≠ 0 ∧ count ev evRead c.nread = 1 then evRead else 0) |||
      (if ev.evEvents &&& evWrite ≠ 0 ∧ count ev evWrite c.nwrite = 1 then evWrite else 0) := by
    simp only [ioFlags_of_ite, count_eq_one, first]
  have hmask : c.mask = (if c.nread ≠ 0 then evRead else 0) ||| (if c.nwrite ≠ 0 then evWrite else 0) := by
    simp only [ioFlags_of_ite, EvmapIo.mask]
  rw [hfirst, hmask]
  rfl

theorem toNat_ofNat_of_le {n : Nat} (h : n ≤ 0xffff) : (UInt16.ofNat n).toNat = n :=
  UInt16.toNat_ofNat_of_lt' (by unfold UInt16.size; omega)

theorem ioAdd_added (h : Backend b.evsel b.ctx) (hpos : 0 ≤ ev.evFd) {n : Int} {io : Int → Option EvmapIo}
    (hctx : (b.setIo n io b.evsel).ctx = b.ctx) {res : Int}
    (hrun : (b.setIo n io b.evsel).ioAdd ev.evFd p ev (b.ctx ev.evFd) o = (b', res)) : Added b p ev b' res := by
  rw [ioAdd_eq] at hrun
  split at hrun
  · cases hrun
    exact ⟨n, io, b.evsel, rfl, .inl ⟨rfl, hctx, .inl rfl⟩⟩
  rename_i hbound
  rw [not_or, Nat.not_lt, Nat.not_lt] at hbound
  split at hrun
  · cases hrun
    exact ⟨n, io, b.evsel, rfl, .inl ⟨rfl, hctx, .inl rfl⟩⟩
  have hread := toNat_ofNat_of_le hbound.1
  have hwrite := toNat_ofNat_of_le hbound.2
  have hslot : ∀ x evsel, (b.setIo n (Function.update io ev.evFd (some x)) evsel).ctx =
      Function.update b.ctx ev.evFd x := by
    intro x evsel
    funext fd
    by_cases hfd : fd = ev.evFd
    · subst hfd
      simp [EventBase.ctx, EventBase.setIo]
    · rw [Function.update_of_ne hfd, ← hctx]
      simp [EventBase.ctx, EventBase.setIo, Function.update_of_ne hfd]
  dsimp only at hrun
  split at hrun
  · rename_i hfirst
    cases hrun
    refine ⟨n, _, _, rfl, .inr ⟨hpos, by decide, ?_, _, _, hread, hwrite, hslot ..⟩⟩
    show Backend _ (b.setIo n (Function.update io ev.evFd (some _)) _).ctx
    rw [hslot]
    exact h.add hread hwrite _ hfirst
  · rename_i hfirst
    cases hrun
    refine ⟨n, _, _, rfl, .inr ⟨hpos, by decide, ?_, _, _, hread, hwrite, hslot ..⟩⟩
    show Backend _ (b.setIo n (Function.update io ev.evFd (some _)) _).ctx
    rw [hslot]
    exact h.keep hread hwrite _ (not_not.mp hfirst)

theorem evmapIoAdd_added (h : Backend b.evsel b.ctx) (hp : b.handlers p = some ev) :
    ∃ b' res, b.evmapIoAdd ev.evFd p o = .ok (b', res) ∧ Added b p ev b' res := by
  rw [EventBase.evmapIoAdd, deref_of_live hp, ok_bind]
  split
  · rename_i hneg
    exact ⟨b, 0, rfl, b.nentries, b.io, b.evsel, rfl, .inl ⟨rfl, rfl, .inr hneg⟩⟩
  rename_i hpos
  have hsame : Added b p ev b (-1) := ⟨b.nentries, b.io, b.evsel, rfl, .inl ⟨rfl, rfl, .inl rfl⟩⟩
  cases hspace : b.makeSpace ev.evFd o with
  | none => exact ⟨b, -1, rfl, hsame⟩
  | some b₁ =>
    obtain ⟨n, rfl⟩ : ∃ n, b₁ = b.setIo n b.io b.evsel := by
      unfold EventBase.makeSpace at hspace
      split at hspace
      · obtain ⟨n, -, rfl⟩ := Option.map_eq_some_iff.mp hspace
        exact ⟨n, rfl⟩
      · cases hspace
        exact ⟨b.nentries, rfl⟩
    dsimp only
    cases hslot : (b.setIo n b.io b.evsel).getIoSlot ev.evFd o with
    | none => exact ⟨_, -1, rfl, n, b.io, b.evsel, rfl, .inl ⟨rfl, rfl, .inl rfl⟩⟩
    | some r =>
      obtain ⟨b₂, c⟩ := r
      obtain ⟨io, rfl, hctx, rfl⟩ := getIoSlot_some hslot
      exact ⟨_, _, rfl, @ioAdd_added _ _ _ _ _ h (Int.not_lt.mp hpos) n io hctx _ rfl⟩

/-- The event base is consistent: its lists, counters and queues agree with the flags of the
    handlers, and the backend watches for what they want. -/
structure Consistent (b : EventBase) : Prop where
  tables : Tables b.handlers b.ctx
  backend : Backend b.evsel b.ctx
  queues : Queues b
  flags : ∀ p ev, b.handlers p = some ev → ev.Within

theorem Consistent.register (h : Consistent b) (hp : b.handlers p = some ev) (hnew : ¬ ev.Inserted)
    {res : Int} (hadd : Added b p ev b' res) (hio : ev.evEvents &&& evIo ≠ 0) (hres : res ≠ -1) :
    Consistent { b'.enqueue p ev evlistInserted with eventqueue := b'.eventqueue ++ [p] } := by
  obtain ⟨n, io, evsel, rfl, hcases⟩ := hadd
  have hqueues : Queues (b.setIo n io evsel) :=
    ⟨h.queues.priority, h.queues.nodup, h.queues.inserted, h.queues.active, h.queues.count, h.queues.countActive⟩
  have hwithin := insert_within (h.flags p ev hp) (show evlistInserted &&& ~~~evlistAll = 0 by decide)
  refine ⟨?_, ?_, hqueues.register hp hnew, within_update h.flags hwithin⟩
  · show Tables (Function.update b.handlers p (some (ev.insert evlistInserted))) (b.setIo n io evsel).ctx
    rcases hcases with ⟨rfl, hctx, hneg⟩ | ⟨hpos, -, -, nread, nwrite, hread, hwrite, hctx⟩
    · rw [hctx]
      refine h.tables.setFlags hp rfl rfl fun hpos _ => ?_
      exact absurd (hneg.resolve_left hres) (Int.not_lt.mpr hpos)
    · rw [hctx]
      exact h.tables.add hp hpos hio hnew insert_inserted rfl rfl hread hwrite
  · show Backend evsel (b.setIo n io evsel).ctx
    rcases hcases with ⟨rfl, hctx, -⟩ | ⟨-, -, hbackend, -⟩
    · rw [hctx]
      exact h.backend
    · exact hbackend

/-- An addition comes to an end, whatever it finds, and leaves a consistent base. -/
theorem Consistent.add (h : Consistent b) (hp : b.handlers p = some ev) (o : Outcome) :
    ∃ b', b.eventAddInternal p o = .ok (some b') ∧ Consistent b' := by
  have hwithin : ¬ ev.evFlags &&& ~~~evlistAll ≠ 0 := not_not.mpr (h.flags p ev hp)
  rw [EventBase.eventAddInternal, deref_of_live hp, ok_bind, if_neg hwithin]
  split
  · rename_i hnew
    have hins : ¬ ev.Inserted := by
      have hzero := (FlagWord.and_or_eq_zero.mp hnew.2).1
      exact not_not.mpr hzero
    by_cases hio : ev.evEvents &&& evIo ≠ 0
    · obtain ⟨b₁, res, hrun, hadd⟩ := evmapIoAdd_added (o := o) h.backend hp
      have hlive : b₁.handlers p = some ev := by
        obtain ⟨n, io, evsel, rfl, -⟩ := hadd
        exact hp
      have hevents : ev.evEvents &&& (evRead ||| evWrite) ≠ 0 := hio
      rw [if_pos hevents, hrun, ok_bind]
      dsimp only
      by_cases hres : res ≠ -1
      · rw [if_pos hres, eventQueueInsert_inserted hlive hins]
        exact ⟨_, rfl, h.register hp hins hadd hio hres⟩
      · rw [if_neg hres]
        refine ⟨_, rfl, ?_⟩
        obtain ⟨n, io, evsel, rfl, ⟨rfl, hctx, -⟩ | ⟨-, hne, -⟩⟩ := hadd
        · refine ⟨?_, ?_, ?_, h.flags⟩
          · rw [hctx]
            exact h.tables
          · rw [hctx]
            exact h.backend
          · exact ⟨h.queues.priority, h.queues.nodup, h.queues.inserted, h.queues.active, h.queues.count,
              h.queues.countActive⟩
        · exact absurd hne hres
    · have hevents : ¬ ev.evEvents &&& (evRead ||| evWrite) ≠ 0 := hio
      rw [if_neg hevents, pure_eq_ok, ok_bind]
      dsimp only
      by_cases hres : o.signal ≠ -1
      · rw [if_pos hres, eventQueueInsert_inserted hp hins]
        have hwithin := insert_within (h.flags p ev hp) (show evlistInserted &&& ~~~evlistAll = 0 by decide)
        refine ⟨_, rfl, ?_, h.backend, h.queues.register hp hins, within_update h.flags hwithin⟩
        exact h.tables.setFlags hp rfl rfl fun _ hne => absurd hne hio
      · rw [if_neg hres]
        exact ⟨_, rfl, h⟩
  · exact ⟨b, rfl, h⟩

theorem Consistent.active (h : Consistent b) (hp : b.handlers p = some ev) :
    ∃ b', b.eventQueueInsert p evlistActive = .ok (some b') ∧ Consistent b' := by
  by_cases hact : ev.Active
  · exact ⟨b, eventQueueInsert_again hp hact, h⟩
  · obtain ⟨l, hl⟩ : ∃ l, b.activequeue[ev.evPri]? = some l :=
      ⟨_, List.getElem?_eq_getElem (h.queues.priority p ev hp)⟩
    have hwithin := insert_within (h.flags p ev hp) (show evlistActive &&& ~~~evlistAll = 0 by decide)
    refine ⟨_, eventQueueInsert_active hp hact hl, ?_, h.backend, h.queues.activate hp hact hl,
      within_update h.flags hwithin⟩
    exact h.tables.setFlags hp rfl rfl fun _ _ => inserted_insert_active

/-- A function that reads the handler first does not come to an end without it. -/
theorem live_of_ok {α : Type} {f : Handler → Except Fault α} {a : α}
    (hrun : (deref b.handlers (some p) >>= f) = .ok a) : ∃ ev, b.handlers p = some ev := by
  cases hp : b.handlers p with
  | none =>
    rw [deref, hp] at hrun
    cases hrun
  | some ev => exact ⟨ev, rfl⟩

theorem init_consistent (n : Nat) : Consistent (EventBase.init n) where
  tables := ⟨fun _ => List.nodup_nil, fun fd p => by simp [EventBase.ctx, EventBase.init], fun _ => rfl, fun _ => rfl⟩
  backend := by
    refine ⟨fun fd => ?_, fun pre c post heq => by simp [EventBase.init] at heq⟩
    have hmask : (⟨[], 0, 0⟩ : EvmapIo).mask = 0 := by decide
    exact hmask.symm
  queues := by
    refine ⟨?_, List.nodup_nil, fun p => ?_, fun pri l hl => ?_, ?_, ?_⟩
    · rintro p ev ⟨⟩
    · simp [EventBase.init]
    · obtain ⟨-, rfl⟩ : pri < n ∧ l = [] := by
        simp only [EventBase.init, List.getElem?_replicate] at hl
        split at hl
        · rename_i hlt
          cases hl
          exact ⟨hlt, rfl⟩
        · cases hl
      exact ⟨List.nodup_nil, fun p => by simp [EventBase.init]⟩
    · simp [EventBase.init]
    · simp [EventBase.init]
  flags := by rintro p ev ⟨⟩

namespace EventBase

theorem Step.consistent {e : Event} (hstep : Step b e b') (h : Consistent b) : Consistent b' := by
  cases hstep with
  | @assign p ev hp hflags hall hpri =>
    obtain ⟨hins, hact⟩ := FlagWord.and_or_eq_zero.mp hflags
    exact ⟨h.tables.assign hp (not_not.mpr hins), h.backend,
      h.queues.assign hp (not_not.mpr hins) (not_not.mpr hact) hpri, within_update h.flags hall⟩
  | @add _ p o hrun =>
    obtain ⟨ev, hp⟩ := live_of_ok hrun
    obtain ⟨b₁, hadd, hb⟩ := h.add hp o
    rw [hadd] at hrun
    cases hrun
    exact hb
  | @active _ p hrun =>
    obtain ⟨ev, hp⟩ := live_of_ok hrun
    obtain ⟨b₁, hact, hb⟩ := h.active hp
    rw [hact] at hrun
    cases hrun
    exact hb

/-- Every run leaves a consistent base, from which a handler can be added: no queue is entered
    twice, the assertion holds, and the process does not exit. -/
theorem run_consistent {n : Nat} {es : List Event} (hrun : Run Step (init n) es b) :
    Consistent b ∧ ∀ p ev o, b.handlers p = some ev →
      ∃ b', b.eventAddInternal p o = .ok (some b') ∧ Consistent b' := by
  have h : Consistent b := Run.invariant (fun _ _ _ hs hstep => hstep.consistent hs) hrun (init_consistent n)
  exact ⟨h, fun p ev o hp => h.add hp o⟩

/-- Three handlers: the backend is told of two of the same descriptor, and fails for the third. -/
def three : List Event :=
  [.assign 1 ⟨5, evRead, 0, 0⟩, .assign 2 ⟨5, evRead ||| evWrite ||| evEt, 0, 0⟩, .assign 3 ⟨6, evRead, 0, 0⟩,
    .add 1 ⟨some 32, true, true, 0⟩, .add 2 ⟨none, false, true, 0⟩, .add 3 ⟨none, true, false, 0⟩,
    .add 1 ⟨none, false, false, 0⟩]

theorem three_run : ∃ b, Run Step (init 1) three b ∧
    b.evsel = [⟨5, 0, evRead⟩, ⟨5, evRead, evEt ||| evWrite⟩] ∧ b.eventqueue = [1, 2] := by
  apply Exists.intro
  apply And.intro
  · apply Run.cons (.assign rfl (by decide) (by decide) (by decide))
    apply Run.cons (.assign rfl (by decide) (by decide) (by decide))
    apply Run.cons (.assign rfl (by decide) (by decide) (by decide))
    apply Run.cons (.add rfl)
    apply Run.cons (.add rfl)
    apply Run.cons (.add rfl)
    apply Run.cons (.add rfl)
    exact Run.nil _
  · exact ⟨by decide, by decide⟩

theorem run_consistent_three : ∃ b, Run Step (init 1) three b ∧ (Consistent b ∧ ∀ p ev o, b.handlers p = some ev →
    ∃ b', b.eventAddInternal p o = .ok (some b') ∧ Consistent b') ∧
    b.evsel = [⟨5, 0, evRead⟩, ⟨5, evRead, evEt ||| evWrite⟩] ∧ b.eventqueue = [1, 2] := by
  obtain ⟨b, hrun, hstate⟩ := three_run
  exact ⟨b, hrun, run_consistent hrun, hstate⟩

end EventBase

end Libevent
