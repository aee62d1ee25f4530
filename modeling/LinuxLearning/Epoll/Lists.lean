-- SUMMARY: The lists of the eventpoll in every run: each item on one list at most once, the overflow chain, and who holds the mutex.
import LinuxLearning.Common.SinglyLinked
import LinuxLearning.Epoll.Eventpoll

/-!
# The lists of the eventpoll

An item is in the ready list, in the list of the scan, or in the hand of the thread that scans,
and at most once. The items whose `next` is active are those of the overflow chain, which is
there during a scan only.
-/

namespace Epoll

open Memory SinglyLinked Transition

variable {φ τ : Type}

/-- `epi->next` where it is a pointer. -/
def Epitem.link (v : Epitem φ) : Option Ptr :=
  match v.next with
  | .unactive => none
  | .ptr x => x

/-- The item that the scan has taken from its list. -/
def Mtx.hand : Mtx τ → List Ptr
  | .scan _ _ (.poll epi) | .scan _ _ (.put epi _) => [epi]
  | _ => []

/-- The overflow chain leads to the items `ps`. -/
def Eventpoll.Overflow (e : Eventpoll φ) (ps : List Ptr) : Prop :=
  match e.ovflist with
  | .unactive => ps = []
  | .ptr x => Chain Epitem.link e.items x ps

/-- The lists, with the items `hand` that a scan has taken. -/
structure Lists (e : Eventpoll φ) (hand : List Ptr) : Prop where
  nodup : (hand ++ e.txlist ++ e.rdllist).Nodup
  live : ∀ p ∈ hand ++ e.txlist ++ e.rdllist, (e.items p).isSome
  overflow : ∃ ps, e.Overflow ps ∧ ∀ p v, e.items p = some v → (v.next ≠ .unactive ↔ p ∈ ps)
  txlist : e.ovflist = .unactive → e.txlist = []

variable {e e' : Eventpoll φ} {hand : List Ptr} {p q : Ptr} {v v' : Epitem φ} {key : Events} {wakes : Bool}

theorem Eventpoll.Overflow.congr {ps : List Ptr} (h : e.Overflow ps) (hovf : e'.ovflist = e.ovflist)
    (hitems : ∀ q ∈ ps, (e'.items q).map Epitem.link = (e.items q).map Epitem.link) : e'.Overflow ps := by
  unfold Eventpoll.Overflow at h ⊢
  rw [hovf]
  split at h
  · exact h
  · exact Chain.congr_links h hitems

theorem Eventpoll.Overflow.live {ps : List Ptr} (h : e.Overflow ps) (hp : p ∈ ps) : (e.items p).isSome := by
  unfold Eventpoll.Overflow at h
  split at h
  · subst h
    cases hp
  · obtain ⟨pre, post, rfl⟩ := List.append_of_mem hp
    obtain ⟨-, v, hv, -⟩ := Chain.drop h
    rw [hv]
    rfl

-- ---------------------------------------------------------------------------
-- Lists
-- ---------------------------------------------------------------------------

/-- Where no scan has begun, no item is active. -/
theorem Lists.next (h : Lists e hand) (hovf : e.ovflist = .unactive) (hv : e.items p = some v) :
    v.next = .unactive := by
  obtain ⟨ps, hps, hnext⟩ := h.overflow
  simp only [Eventpoll.Overflow, hovf] at hps
  subst hps
  by_contra hne
  exact absurd ((hnext p v hv).mp hne) List.not_mem_nil

/-- The lists do not depend on what else is in the items. -/
theorem Lists.congr (h : Lists e hand) {items : Store (Epitem φ)}
    (hitems : ∀ q, (items q).map Epitem.next = (e.items q).map Epitem.next) :
    Lists { e with items := items } hand := by
  have hitem : ∀ q w, items q = some w → ∃ w', e.items q = some w' ∧ w'.next = w.next := by
    intro q w hw
    have hq := hitems q
    rw [hw, Option.map_some, eq_comm, Option.map_eq_some_iff] at hq
    exact hq
  obtain ⟨ps, hps, hnext⟩ := h.overflow
  refine ⟨h.nodup, fun q hq => ?_, ⟨ps, hps.congr rfl fun q _ => ?_, fun q w hw => ?_⟩, h.txlist⟩
  · have hlive := h.live q hq
    rw [← Option.isSome_map (f := Epitem.next), ← hitems, Option.isSome_map] at hlive
    exact hlive
  · have hlink : (Epitem.link : Epitem φ → Option Ptr) = (fun | .unactive => none | .ptr x => x) ∘ Epitem.next := rfl
    rw [hlink, ← Option.map_map, hitems, Option.map_map]
  · obtain ⟨w', hw', hn⟩ := hitem q w hw
    rw [← hn]
    exact hnext q w' hw'

/-- An item is changed, but not its `next`. -/
theorem Lists.setItem (h : Lists e hand) (hv : e.items p = some v) (hnext : v'.next = v.next) :
    Lists { e with items := Function.update e.items p (some v') } hand := by
  refine h.congr fun q => ?_
  by_cases hq : q = p
  · subst hq
    rw [Function.update_self, hv, Option.map_some, Option.map_some, hnext]
  · rw [Function.update_of_ne hq]

/-- What goes on with the same lists, in another order, and with fewer items. -/
theorem Lists.sublist (h : Lists e hand) {hand' txlist rdllist : List Ptr}
    (hsub : List.Subperm (hand' ++ txlist ++ rdllist) (hand ++ e.txlist ++ e.rdllist))
    (htx : e.ovflist = .unactive → txlist = []) :
    Lists { e with txlist := txlist, rdllist := rdllist } hand' where
  nodup := by
    obtain ⟨l, hperm, hl⟩ := hsub
    exact hperm.nodup_iff.mp (h.nodup.sublist hl)
  live p hp := h.live p (hsub.subset hp)
  overflow := h.overflow
  txlist := htx

@[simp] theorem addReady_items : (e.addReady p).items = e.items := by
  unfold Eventpoll.addReady
  split <;> rfl

@[simp] theorem addReady_rbr : (e.addReady p).rbr = e.rbr := by
  unfold Eventpoll.addReady
  split <;> rfl

@[simp] theorem addReady_ovflist : (e.addReady p).ovflist = e.ovflist := by
  unfold Eventpoll.addReady
  split <;> rfl

@[simp] theorem addReady_txlist : (e.addReady p).txlist = e.txlist := by
  unfold Eventpoll.addReady
  split <;> rfl

theorem addReady_rdllist : (e.addReady p).rdllist = e.rdllist ++ [p].filter (fun q => ¬ e.IsLinked q) := by
  unfold Eventpoll.addReady
  split <;> rename_i hlinked <;> simp [hlinked]

/-- The item gets on the ready list, unless it is in the other list already. -/
theorem isLinked_addReady : (e.addReady p).IsLinked q ↔ e.IsLinked q ∨ q = p := by
  unfold Eventpoll.addReady
  split
  · rename_i hlinked
    exact ⟨.inl, fun h => h.elim id (by rintro rfl; exact hlinked)⟩
  · simp [Eventpoll.IsLinked, or_assoc, or_comm]

theorem Lists.addReady (h : Lists e hand) (hp : p ∉ hand) (hv : e.items p = some v) :
    Lists (e.addReady p) hand := by
  unfold Eventpoll.addReady
  split
  · exact h
  · rename_i hlinked
    simp only [Eventpoll.IsLinked, not_or] at hlinked
    refine ⟨?_, fun q hq => ?_, h.overflow, h.txlist⟩
    · rw [← List.append_assoc, List.nodup_append_comm, List.singleton_append, List.nodup_cons]
      refine ⟨?_, h.nodup⟩
      simp only [List.mem_append, not_or]
      exact ⟨⟨hp, hlinked.2⟩, hlinked.1⟩
    · rw [← List.append_assoc, List.mem_append, List.mem_singleton] at hq
      rcases hq with hq | rfl
      · exact h.live q hq
      · show (e.items q).isSome
        rw [hv]
        rfl

/-- A new item is on no list. -/
theorem Lists.insertItem (h : Lists e hand) (hp : e.items p = none) (ffd : EpollFilefd φ) (event : EpollEvent) :
    Lists (e.insertItem p ffd event) hand := by
  obtain ⟨ps, hps, hnext⟩ := h.overflow
  have hother : ∀ q, (e.items q).isSome → Function.update e.items p (some ⟨.unactive, ffd, 0, 0, event⟩) q = e.items q := by
    intro q hq
    refine Function.update_of_ne ?_ ..
    rintro rfl
    simp [hp] at hq
  refine ⟨h.nodup, fun q hq => ?_, ⟨ps, hps.congr rfl fun q hq => ?_, fun q w hw => ?_⟩, h.txlist⟩
  · show (Function.update e.items p _ q).isSome
    rw [hother q (h.live q hq)]
    exact h.live q hq
  · exact congrArg _ (hother q (hps.live hq))
  · by_cases hq : q = p
    · subst hq
      simp only [Eventpoll.insertItem, Function.update_self, Option.some.injEq] at hw
      subst hw
      refine iff_of_false (by simp) fun hmem => ?_
      have hlive := hps.live hmem
      simp [hp] at hlive
    · simp only [Eventpoll.insertItem, Function.update_of_ne hq] at hw
      exact hnext q w hw

theorem insertFree_eq (hv : e.items p = some v) (hrun : e.insertFree p = .ok e') :
    e' = { e with items := Function.update e.items p none, rdllist := e.rdllist.erase p } := by
  simp only [Eventpoll.insertFree, free_of_live hv, ok_bind, pure_eq_ok, Except.ok.injEq] at hrun
  exact hrun.symm

/-- Outside of a scan an item is freed that has left the ready list. -/
theorem Lists.insertFree (h : Lists e []) (hovf : e.ovflist = .unactive) :
    Lists { e with items := Function.update e.items p none, rdllist := e.rdllist.erase p } [] := by
  have htx := h.txlist hovf
  have hnodup := h.nodup
  simp only [htx, List.nil_append] at hnodup
  refine ⟨?_, fun q hq => ?_, ⟨[], ?_, fun q w hw => ?_⟩, fun _ => htx⟩
  · simpa [htx] using hnodup.erase p
  · simp only [htx, List.nil_append] at hq
    have hne : q ≠ p := fun heq => List.Nodup.not_mem_erase hnodup (heq ▸ hq)
    show (Function.update e.items p none q).isSome
    rw [Function.update_of_ne hne]
    exact h.live q (by simpa [htx] using List.mem_of_mem_erase hq)
  · simp [Eventpoll.Overflow, hovf]
  · have hne : q ≠ p := by
      rintro rfl
      simp at hw
    simp only [Function.update_of_ne hne] at hw
    exact iff_of_false (not_not.mpr (h.next hovf hw)) List.not_mem_nil

-- ---------------------------------------------------------------------------
-- The callback
-- ---------------------------------------------------------------------------

/-- A callback with this key is for an event that the item is watched for. -/
def Epitem.Wants (v : Epitem φ) (key : Events) : Prop :=
  v.event.events &&& ~~~privateBits ≠ 0 ∧ (key = 0 ∨ key &&& v.event.events ≠ 0)

/-- The item becomes the head of the overflow chain. -/
def Eventpoll.addOverflow (e : Eventpoll φ) (p : Ptr) (v : Epitem φ) : Eventpoll φ :=
  { e with items := Function.update e.items p (some { v with next := e.ovflist }), ovflist := .ptr (some p) }

/-- A callback does nothing, or it puts the item on one of two lists. -/
theorem pollCallback_cases (hv : e.items p = some v) (hrun : e.pollCallback p key = .ok (e', wakes)) :
    (e' = e ∧ wakes = false ∧ (v.Wants key → e.ovflist ≠ .unactive ∧ v.next ≠ .unactive)) ∨
      (v.Wants key ∧ e.ovflist ≠ .unactive ∧ v.next = .unactive ∧ wakes = false ∧ e' = e.addOverflow p v) ∨
      (v.Wants key ∧ e.ovflist = .unactive ∧ wakes = true ∧ e' = e.addReady p) := by
  unfold Eventpoll.pollCallback at hrun
  rw [deref_of_live hv, ok_bind] at hrun
  by_cases hoff : v.event.events &&& ~~~privateBits = 0
  · rw [if_pos hoff] at hrun
    cases hrun
    exact .inl ⟨rfl, rfl, fun hw => absurd hoff hw.1⟩
  by_cases hkey : key ≠ 0 ∧ key &&& v.event.events = 0
  · rw [if_neg hoff, if_pos hkey] at hrun
    cases hrun
    exact .inl ⟨rfl, rfl, fun hw => hw.2.elim (absurd · hkey.1) (absurd hkey.2)⟩
  have hwants : v.Wants key := by
    refine ⟨hoff, ?_⟩
    by_cases hzero : key = 0
    · exact .inl hzero
    · exact .inr fun hand => hkey ⟨hzero, hand⟩
  rw [if_neg hoff, if_neg hkey] at hrun
  by_cases hovf : e.ovflist = .unactive
  · rw [if_neg (not_not.mpr hovf)] at hrun
    cases hrun
    exact .inr (.inr ⟨hwants, hovf, rfl, rfl⟩)
  rw [if_pos hovf] at hrun
  by_cases hnext : v.next = .unactive
  · rw [if_pos hnext, modify_of_live hv, ok_bind] at hrun
    cases hrun
    exact .inr (.inl ⟨hwants, hovf, hnext, rfl, rfl⟩)
  · rw [if_neg hnext] at hrun
    cases hrun
    exact .inl ⟨rfl, rfl, fun _ => ⟨hovf, hnext⟩⟩

theorem pollCallback_ok (hv : e.items p = some v) (key : Events) : ∃ r, e.pollCallback p key = .ok r := by
  unfold Eventpoll.pollCallback
  rw [deref_of_live hv, ok_bind]
  split
  · exact ⟨_, rfl⟩
  split
  · exact ⟨_, rfl⟩
  split
  · split
    · rw [modify_of_live hv]
      exact ⟨_, rfl⟩
    · exact ⟨_, rfl⟩
  · exact ⟨_, rfl⟩

theorem Lists.addOverflow (h : Lists e hand) (hv : e.items p = some v) (hovf : e.ovflist ≠ .unactive)
    (hnext : v.next = .unactive) : Lists (e.addOverflow p v) hand := by
  obtain ⟨ps, hps, hiff⟩ := h.overflow
  have hp : p ∉ ps := fun hmem => (hiff p v hv).mpr hmem hnext
  cases hx : e.ovflist with
  | unactive => exact absurd hx hovf
  | ptr x =>
    simp only [Eventpoll.Overflow, hx] at hps
    have hsome : ∀ q, ((e.addOverflow p v).items q).isSome = (e.items q).isSome := by
      intro q
      by_cases hq : q = p
      · subst hq
        simp [Eventpoll.addOverflow, hv]
      · simp [Eventpoll.addOverflow, Function.update_of_ne hq]
    refine ⟨h.nodup, fun q hq => (hsome q).trans (h.live q hq), ⟨p :: ps, ?_, fun q w hw => ?_⟩, ?_⟩
    · have hpush := Chain.push (v := { v with next := .ptr x }) hps hp rfl
      simpa only [Eventpoll.Overflow, Eventpoll.addOverflow, hx] using hpush
    · by_cases hq : q = p
      · subst hq
        simp only [Eventpoll.addOverflow, Function.update_self, Option.some.injEq] at hw
        subst hw
        simp [hx]
      · simp only [Eventpoll.addOverflow, Function.update_of_ne hq] at hw
        simp [hiff q w hw, hq]
    · rintro ⟨⟩

-- ---------------------------------------------------------------------------
-- Insertion
-- ---------------------------------------------------------------------------

/-- A wait queue entry is made, or `nwait` says that none could be. -/
theorem ptableQueueProc_cases {allocated : Bool} (hv : e.items p = some v)
    (hrun : e.ptableQueueProc p allocated = .ok e') : ∃ n k, v.pwqlist ≤ k ∧
      e' = { e with items := Function.update e.items p (some { v with nwait := n, pwqlist := k }) } := by
  rw [Eventpoll.ptableQueueProc, modify_of_live hv, ok_bind] at hrun
  cases hrun
  split
  · exact ⟨_, _, Nat.le_succ _, rfl⟩
  · exact ⟨-1, v.pwqlist, Nat.le_refl _, rfl⟩

/-- The item is in the tree, and on the ready list if the file was ready for it. -/
theorem insertReady_cases [DecidableEq φ] {revents : Events} (hv : e.items p = some v)
    (hrun : e.insertReady p revents = .ok (e', wakes)) :
    (revents &&& v.event.events ≠ 0 ∧ wakes = true ∧
        e' = { e with rbr := Function.update e.rbr v.ffd (some p) }.addReady p) ∨
      ((revents &&& v.event.events ≠ 0 → e.IsLinked p) ∧ wakes = false ∧
        e' = { e with rbr := Function.update e.rbr v.ffd (some p) }) := by
  rw [Eventpoll.insertReady, deref_of_live hv, ok_bind] at hrun
  dsimp only at hrun
  split at hrun
  · rename_i hready
    cases hrun
    exact .inl ⟨hready.1, rfl, rfl⟩
  · rename_i hready
    cases hrun
    exact .inr ⟨fun hne => by_contra fun hnot => hready ⟨hne, hnot⟩, rfl, rfl⟩

-- ---------------------------------------------------------------------------
-- The scan
-- ---------------------------------------------------------------------------

/-- `epi->event.events &= EP_PRIVATE_BITS`. -/
def Epitem.disable (v : Epitem φ) : Epitem φ :=
  { v with event := { v.event with events := v.event.events &&& privateBits } }

/-- Behind a report an item is disabled, back on the ready list, or on no list. -/
theorem sendPut_cases (hv : e.items p = some v) (hrun : e.sendPut p = .ok e') :
    (v.event.events &&& epollOneshot ≠ 0 ∧
        e' = { e with items := Function.update e.items p (some v.disable) }) ∨
      (v.event.events &&& epollOneshot = 0 ∧ v.event.events &&& epollEt = 0 ∧
        e' = { e with rdllist := e.rdllist ++ [p] }) ∨
      (v.event.events &&& epollOneshot = 0 ∧ v.event.events &&& epollEt ≠ 0 ∧ e' = e) := by
  rw [Eventpoll.sendPut, deref_of_live hv, ok_bind] at hrun
  by_cases hone : v.event.events &&& epollOneshot ≠ 0
  · rw [if_pos hone, modify_of_live hv, ok_bind] at hrun
    cases hrun
    exact .inl ⟨hone, rfl⟩
  rw [if_neg hone] at hrun
  rw [not_not] at hone
  by_cases het : v.event.events &&& epollEt = 0
  · rw [if_pos het] at hrun
    cases hrun
    exact .inr (.inl ⟨hone, het, rfl⟩)
  · rw [if_neg het] at hrun
    cases hrun
    exact .inr (.inr ⟨hone, het, rfl⟩)

theorem sendPut_ok (hv : e.items p = some v) : ∃ e', e.sendPut p = .ok e' := by
  rw [Eventpoll.sendPut, deref_of_live hv, ok_bind]
  split
  · rw [modify_of_live hv]
    exact ⟨_, rfl⟩
  split
  · exact ⟨_, rfl⟩
  · exact ⟨_, rfl⟩

theorem Lists.splice (h : Lists e []) (hovf : e.ovflist = .unactive) : Lists e.scanSplice [] := by
  have htx := h.txlist hovf
  refine ⟨?_, fun q hq => ?_, ⟨[], rfl, fun q w hw => ?_⟩, ?_⟩
  · simpa [Eventpoll.scanSplice, htx] using h.nodup
  · simp only [Eventpoll.scanSplice, List.nil_append, List.append_nil] at hq
    exact h.live q (by simp [htx, hq])
  · exact iff_of_false (not_not.mpr (h.next hovf hw)) List.not_mem_nil
  · rintro ⟨⟩

/-- `epi->next = EP_UNACTIVE_PTR`. -/
def Epitem.clear (v : Epitem φ) : Epitem φ :=
  { v with next := .unactive }

/-- One round of the loop over `ovflist`. -/
def Eventpoll.requeueItem (e : Eventpoll φ) (p : Ptr) (v : Epitem φ) : Eventpoll φ :=
  { e.addReady p with items := Function.update e.items p (some v.clear) }

/-- The loop goes through the chain, and appends the items that are not linked yet. -/
theorem scanLoop_ok {ps : List Ptr} {x : Option Ptr} (hps : Chain Epitem.link e.items x ps)
    (hactive : ∀ q ∈ ps, ∀ w, e.items q = some w → w.next ≠ .unactive) :
    ∃ e', (∀ n, ps.length < n → e.scanLoop n (.ptr x) = .ok e') ∧ e'.rbr = e.rbr ∧ e'.txlist = e.txlist ∧
      e'.rdllist = e.rdllist ++ ps.filter (fun q => ¬ e.IsLinked q) ∧
      ∀ q, e'.items q = if q ∈ ps then (e.items q).map Epitem.clear else e.items q := by
  induction ps generalizing e x with
  | nil =>
    obtain rfl : x = none := hps
    refine ⟨e, fun n hn => ?_, rfl, rfl, by simp, fun q => by simp⟩
    obtain ⟨n, rfl⟩ := Nat.exists_eq_succ_of_ne_zero (Nat.ne_of_gt hn)
    rfl
  | cons p ps ih =>
    have hnodup := hps.nodup
    obtain ⟨rfl, v, hv, hps⟩ := hps
    obtain ⟨hp, hnd⟩ := List.nodup_cons.mp hnodup
    have hother : ∀ q ∈ ps, Function.update e.items p (some v.clear) q = e.items q := by
      intro q hq
      exact Function.update_of_ne (by rintro rfl; exact hp hq) ..
    obtain ⟨y, hy⟩ : ∃ y, v.next = .ptr y := by
      cases hnext : v.next with
      | unactive => exact absurd hnext (hactive p List.mem_cons_self v hv)
      | ptr y => exact ⟨y, rfl⟩
    have hlink : v.link = y := by simp [Epitem.link, hy]
    rw [hlink] at hps
    have hlinked : ∀ q ∈ ps, (e.requeueItem p v).IsLinked q ↔ e.IsLinked q := by
      intro q hq
      have hne : q ≠ p := by
        rintro rfl
        exact hp hq
      have hadd : (e.requeueItem p v).IsLinked q ↔ (e.addReady p).IsLinked q := Iff.rfl
      rw [hadd, isLinked_addReady, or_iff_left hne]
    have hfilter : ps.filter (fun q => ¬ (e.requeueItem p v).IsLinked q) = ps.filter (fun q => ¬ e.IsLinked q) :=
      List.filter_congr fun q hq => by simp [hlinked q hq]
    obtain ⟨e', hrun, hrbr, htx, hrd, hitems⟩ := ih (e := e.requeueItem p v) (x := y)
      (hps.congr fun q hq => hother q hq)
      (fun q hq w hw => hactive q (List.mem_cons_of_mem _ hq) w ((hother q hq).symm.trans hw))
    refine ⟨e', fun n hn => ?_, hrbr.trans addReady_rbr, htx.trans addReady_txlist, ?_, fun q => ?_⟩
    · obtain ⟨n, rfl⟩ := Nat.exists_eq_succ_of_ne_zero (Nat.ne_of_gt ((Nat.zero_le _).trans_lt hn))
      simp only [Eventpoll.scanLoop, addReady_items, deref_of_live hv, modify_of_live hv, ok_bind, hy]
      exact hrun n (Nat.lt_of_succ_lt_succ hn)
    · have hround : (e.requeueItem p v).rdllist = (e.addReady p).rdllist := rfl
      rw [hrd, hfilter, hround, addReady_rdllist, List.append_assoc, ← List.filter_append, List.singleton_append]
    · rw [hitems q]
      by_cases hqp : q = p
      · subst hqp
        simp [Eventpoll.requeueItem, hp, hv]
      · simp [Eventpoll.requeueItem, hqp]

/-- Behind a scan the lists are joined: what the scan left, what it put back, and what became
    ready meanwhile. -/
structure Requeued (e e' : Eventpoll φ) (ps : List Ptr) : Prop where
  overflow : ps.Nodup
  active : ∀ q v, e.items q = some v → (v.next ≠ .unactive ↔ q ∈ ps)
  rdllist : e'.rdllist = e.txlist ++ (e.rdllist ++ ps.filter fun q => ¬ e.IsLinked q)
  txlist : e'.txlist = []
  ovflist : e'.ovflist = .unactive
  rbr : e'.rbr = e.rbr
  items : ∀ q, e'.items q = (e.items q).map Epitem.clear

theorem Lists.scanRequeue (h : Lists e hand) (hovf : e.ovflist ≠ .unactive) :
    ∃ e' ps, Yields (fun n => e.scanRequeue n) e' ∧ (∀ q ∈ ps, (e.items q).isSome) ∧ Requeued e e' ps := by
  obtain ⟨ps, hps, hiff⟩ := h.overflow
  have hlive : ∀ q ∈ ps, (e.items q).isSome := fun q hq => hps.live hq
  cases hx : e.ovflist with
  | unactive => exact absurd hx hovf
  | ptr x =>
    simp only [Eventpoll.Overflow, hx] at hps
    have hnodup := hps.nodup
    obtain ⟨e₁, hrun, hrbr, htx, hrd, hitems⟩ := scanLoop_ok hps fun q hq w hw => (hiff q w hw).mpr hq
    refine ⟨{ e₁ with ovflist := .unactive, rdllist := e₁.txlist ++ e₁.rdllist, txlist := [] }, ps,
      ⟨ps.length + 1, fun n hn => ?_⟩, hlive, ⟨hnodup, hiff, ?_, rfl, rfl, hrbr, fun q => ?_⟩⟩
    · simp only [Eventpoll.scanRequeue, hx, hrun n hn]
      rfl
    · rw [← hrd, ← htx]
    · rw [hitems q]
      split
      · rfl
      · rename_i hq
        cases hw : e.items q with
        | none => rfl
        | some w =>
          have hnext : w.next = .unactive := by
            by_contra hne
            exact hq ((hiff q w hw).mp hne)
          simp [Epitem.clear, ← hnext]

/-- The lists behind a scan are lists again. -/
theorem Requeued.lists {ps : List Ptr} (h : Requeued e e' ps) (hlists : Lists e [])
    (hlive : ∀ q ∈ ps, (e.items q).isSome) : Lists e' [] := by
  have hnodup := hlists.nodup
  rw [List.nil_append] at hnodup
  refine ⟨?_, fun q hq => ?_, ⟨[], ?_, fun q w hw => ?_⟩, fun _ => h.txlist⟩
  · rw [h.txlist, h.rdllist, List.nil_append, List.nil_append, ← List.append_assoc]
    refine hnodup.append (h.overflow.filter _) fun q hq hmem => ?_
    have hfresh := of_decide_eq_true (List.mem_filter.mp hmem).2
    exact hfresh ((List.mem_append.mp hq).symm)
  · rw [h.txlist, h.rdllist, List.nil_append, List.nil_append, ← List.append_assoc] at hq
    rw [h.items, Option.isSome_map]
    rcases List.mem_append.mp hq with hq | hq
    · exact hlists.live q hq
    · exact hlive q (List.mem_filter.mp hq).1
  · simp [Eventpoll.Overflow, h.ovflist]
  · rw [h.items, Option.map_eq_some_iff] at hw
    obtain ⟨w', -, rfl⟩ := hw
    simp [Epitem.clear]

end Epoll
