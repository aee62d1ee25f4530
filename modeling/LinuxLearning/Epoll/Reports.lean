-- SUMMARY: How often items are reported: an edge once for each wake-up, a one-shot item once, none twice in one call, and none again and again before another.
import LinuxLearning.Epoll.Readiness

/-!
# Reports

The items that wait for a report stand in a queue: the one in the hand of the scan, the rest of
its list, and the ready list. They leave it at the head, and come back at the tail. What is
counted along a run is balanced by where an item is in this queue, and how often it is waited
for.
-/

namespace Epoll

open Memory SinglyLinked Transition

variable {φ τ : Type}

/-- A copy of an event of the item to user space. -/
def Event.isPut (p : Ptr) : Event φ τ → Bool
  | .put q _ => q = p
  | _ => false

def Event.isCallback (p : Ptr) : Event φ τ → Bool
  | .callback q _ => q = p
  | _ => false

/-- A copy of an event of any item. -/
def Event.isReport : Event φ τ → Bool
  | .put _ _ => true
  | _ => false

/-- The item whose event is copied. -/
def Event.reported : Event φ τ → Option Ptr
  | .put q _ => some q
  | _ => none

/-- The item that `ep_insert` has not put into the tree yet. -/
def Mtx.inserted : Mtx τ → List Ptr
  | .insert epi _ => [epi]
  | _ => []

/-- How often the item is in the overflow chain. -/
def overflowed (items : Store (Epitem φ)) (p : Ptr) : Nat :=
  match items p with
  | none => 0
  | some v => if v.next = .unactive then 0 else 1

variable {e e' : Eventpoll φ} {items items' : Store (Epitem φ)} {p q : Ptr} {v w : Epitem φ}

theorem overflowed_of_live (hv : items p = some v) : overflowed items p = if v.next = .unactive then 0 else 1 := by
  simp only [overflowed, hv]

theorem overflowed_congr (hnext : (items' p).map Epitem.next = (items p).map Epitem.next) :
    overflowed items' p = overflowed items p := by
  unfold overflowed
  cases hw : items' p with
  | none =>
    rw [hw, Option.map_none, eq_comm, Option.map_eq_none_iff] at hnext
    rw [hnext]
  | some w =>
    rw [hw, Option.map_some, eq_comm, Option.map_eq_some_iff] at hnext
    obtain ⟨v, hv, hn⟩ := hnext
    simp only [hv, hn]

theorem overflowed_update_of_ne {x : Option (Epitem φ)} (hpq : p ≠ q) :
    overflowed (Function.update items q x) p = overflowed items p :=
  overflowed_congr (congrArg _ (Function.update_of_ne hpq ..))

/-- An item is changed, but not its `next`. -/
theorem overflowed_setItem (hv : items q = some v) (hnext : w.next = v.next) :
    overflowed (Function.update items q (some w)) p = overflowed items p := by
  by_cases hpq : p = q
  · subst hpq
    rw [overflowed_of_live (Function.update_self ..), overflowed_of_live hv, hnext]
  · exact overflowed_update_of_ne hpq

theorem overflowed_addOverflow (hv : e.items q = some v) (hnext : v.next = .unactive) :
    overflowed (e.addOverflow q v).items p ≤ overflowed e.items p + (decide (q = p)).toNat := by
  by_cases hpq : p = q
  · subst hpq
    rw [overflowed_of_live hv, if_pos hnext, Eventpoll.addOverflow, overflowed_of_live (Function.update_self ..)]
    split
    · exact Nat.zero_le _
    · simp
  · exact (overflowed_update_of_ne hpq).le.trans (Nat.le_add_right ..)

theorem count_singleton (p q : Ptr) : [q].count p = (decide (q = p)).toNat := by
  by_cases hqp : q = p <;> simp [hqp]

theorem count_addReady : (e.addReady q).rdllist.count p ≤ e.rdllist.count p + (decide (q = p)).toNat := by
  rw [addReady_rdllist, List.count_append, ← count_singleton]
  exact Nat.add_le_add_left (List.Sublist.count_le p List.filter_sublist) _

/-- Behind a scan an item of the overflow chain is on the ready list once. -/
theorem Requeued.count_le {ps : List Ptr} (h : Requeued e e' ps) (hv : e.items p = some v) :
    e'.rdllist.count p + overflowed e'.items p ≤ e.txlist.count p + e.rdllist.count p + overflowed e.items p := by
  have hclear : overflowed e'.items p = 0 := by
    rw [overflowed_of_live (v := v.clear) (by rw [h.items, hv]; rfl)]
    rfl
  have hps : (ps.filter fun q => ¬ e.IsLinked q).count p ≤ overflowed e.items p := by
    refine (List.Sublist.count_le p List.filter_sublist).trans ?_
    rw [h.overflow.count, overflowed_of_live hv]
    by_cases hnext : v.next = .unactive
    · rw [if_neg fun hp => (h.active p v hv).mpr hp hnext, if_pos hnext]
    · rw [if_neg hnext]
      split <;> omega
  rw [h.rdllist, List.count_append, List.count_append, hclear]
  omega

namespace System

variable {s u : System φ τ} {ev : Event φ τ}

/-- The items that wait for a report. -/
def queue (s : System φ τ) : List Ptr :=
  s.mtx.hand ++ s.ep.txlist ++ s.ep.rdllist

/-- How often the item is going to be reported, at most: it is being inserted, in the queue, or
    in the overflow chain. -/
def due (s : System φ τ) (p : Ptr) : Nat :=
  s.mtx.inserted.count p + s.queue.count p + overflowed s.ep.items p

variable [DecidableEq φ] [DecidableEq τ]

/-- A callback makes an edge-triggered item due once more, and a report makes it due no longer. -/
theorem Step.due (hstep : Step s ev u) (h : s.Inv) (hv : s.ep.items p = some v)
    (het : v.event.events &&& epollEt ≠ 0) (hdel : ev ≠ .insertFree p) :
    u.due p + (ev.isPut p).toNat ≤ s.due p + (ev.isCallback p).toNat := by
  simp only [System.due, queue, List.count_append]
  cases hstep with
  | device _ _ | consume | wait _ _ | look _ | wakeUp _ _ => exact Nat.le_refl _
  | @callback q key e wakes threads hmem hrun hwake =>
    simp only [Event.isPut, Event.isCallback, Bool.toNat_false]
    obtain ⟨w, hw, -⟩ := h.registry.calls q (List.ne_nil_of_mem hmem)
    rcases pollCallback_cases hw hrun with ⟨rfl, -, -⟩ | ⟨-, hovf, hnext, -, rfl⟩ | ⟨-, -, -, rfl⟩
    · exact Nat.le_add_right ..
    · have hact := overflowed_addOverflow (p := p) hw hnext
      simp only [Eventpoll.addOverflow] at hact ⊢
      omega
    · have hcount := count_addReady (e := s.ep) (p := p) (q := q)
      rw [addReady_items, addReady_txlist]
      omega
  | @insert q ffd event hfree hrbr hq =>
    have hpq : p ≠ q := by
      rintro rfl
      rw [hq] at hv
      cases hv
    simp only [Eventpoll.insertItem, overflowed_update_of_ne hpq, hfree]
    simp [Mtx.inserted, Mtx.hand, hpq.symm, Event.isPut]
  | @queueProc q allocated e hmtx hrun =>
    obtain ⟨w, hw, -⟩ := h.registry.inserting q .poll (by rw [hmtx]; rfl)
    obtain ⟨n, k, -, rfl⟩ := ptableQueueProc_cases hw hrun
    dsimp only
    rw [overflowed_setItem hw (by rfl)]
    exact Nat.le_refl _
  | insertPoll hmtx _ =>
    rw [hmtx]
    exact Nat.le_refl _
  | @insertReady q revents w e wakes threads hmtx hw _ hrun hwake =>
    rw [hmtx]
    simp only [Mtx.inserted, Mtx.hand, Event.isPut, Event.isCallback, Bool.toNat_false, count_singleton, List.count_nil]
    rcases insertReady_cases hw hrun with ⟨-, -, rfl⟩ | ⟨-, -, rfl⟩
    · have hcount := count_addReady (e := { s.ep with rbr := Function.update s.ep.rbr w.ffd (some q) }) (p := p) (q := q)
      rw [addReady_items, addReady_txlist]
      dsimp only at hcount ⊢
      omega
    · dsimp only
      omega
  | @unregister q revents w hmtx hw _ =>
    dsimp only
    rw [hmtx, overflowed_setItem hw (by rfl)]
    exact Nat.le_refl _
  | @insertFree q e hmtx hrun =>
    obtain ⟨w, hw, -⟩ := h.registry.inserting q .unregistered (by rw [hmtx]; rfl)
    obtain rfl := insertFree_eq hw hrun
    have hpq : p ≠ q := by
      rintro rfl
      exact hdel rfl
    dsimp only
    rw [overflowed_update_of_ne hpq, hmtx, List.count_erase_of_ne hpq]
    simp only [Mtx.inserted, Mtx.hand, Event.isPut, Bool.toNat_false, List.count_nil]
    omega
  | @splice t m j ht hfree =>
    have htx := h.lists.txlist (h.noScan fun t sent phase hmtx => by rw [hfree] at hmtx; cases hmtx).1
    simp [hfree, htx, Mtx.inserted, Mtx.hand, Event.isPut, Eventpoll.scanSplice]
  | @take t sent m j q rest hmtx ht htx _ =>
    simp only [hmtx, htx, List.count_cons, Mtx.inserted, Mtx.hand, Event.isPut, Bool.toNat_false, List.count_nil]
    omega
  | stop hmtx _ _ =>
    rw [hmtx]
    exact Nat.le_refl _
  | @poll t sent q v' hmtx _ =>
    simp only [hmtx, polled]
    split
    · exact Nat.le_refl _
    · simp only [Mtx.inserted, Mtx.hand, Event.isPut, Bool.toNat_false, List.count_nil]
      omega
  | @put t sent q revents w e hmtx hw hrun =>
    simp only [hmtx, Mtx.inserted, Mtx.hand, Event.isPut, count_singleton, List.count_nil]
    rcases sendPut_cases hw hrun with ⟨-, rfl⟩ | ⟨-, hlt, rfl⟩ | ⟨-, -, rfl⟩
    · dsimp only
      rw [overflowed_setItem hw (by rfl)]
      omega
    · have hqp : q ≠ p := by
        rintro rfl
        obtain rfl := Option.some.inj (hv.symm.trans hw)
        exact het hlt
      simp [hqp]
    · omega
  | @fault t sent q revents hmtx =>
    simp only [hmtx, List.count_cons, Mtx.inserted, Mtx.hand, Event.isPut, Bool.toNat_false, List.count_nil]
    omega
  | @requeue t sent res m j e threads hmtx ht hrun hwake =>
    obtain ⟨ps, -, hreq⟩ := h.requeued hmtx hrun
    have hcount := hreq.count_le hv
    simp only [hmtx, Mtx.inserted, Mtx.hand, Event.isPut, List.count_nil, hreq.txlist, Bool.toNat_false]
    omega

omit [DecidableEq φ] [DecidableEq τ] in
/-- A bit that is private is never taken from an item. -/
theorem private_of_event {m : Events} (hm : privateBits &&& m = m) (hv : v.event.events &&& m ≠ 0)
    (hevent : w.event = v.event ∨ w.event = v.disable.event) : w.event.events &&& m ≠ 0 := by
  rcases hevent with hevent | hevent
  · rwa [hevent]
  · rw [hevent, Epitem.disable, BitVec.and_assoc, hm]
    exact hv

/-- An item with a private bit keeps it. -/
theorem Step.private {m : Events} (hm : privateBits &&& m = m) (hstep : Step s ev u) (h : s.Inv)
    (hv : ∃ v, s.ep.items p = some v ∧ v.event.events &&& m ≠ 0) (hdel : ev ≠ .insertFree p) :
    ∃ v, u.ep.items p = some v ∧ v.event.events &&& m ≠ 0 := by
  obtain ⟨v, hv, hbit⟩ := hv
  obtain ⟨w, hw, -, hevent⟩ := hstep.item h hv hdel
  refine ⟨w, hw, private_of_event hm hbit (hevent.imp_right ?_)⟩
  rintro ⟨-, -, hdisable⟩
  exact hdisable

omit [DecidableEq φ] [DecidableEq τ] in
theorem due_insert (h : s.Inv) (hp : s.ep.items p = none) (ffd : EpollFilefd φ) (event : EpollEvent) :
    System.due { s with ep := s.ep.insertItem p ffd event, mtx := .insert p .poll } p ≤ 1 := by
  have hunlinked : p ∉ s.ep.txlist ++ s.ep.rdllist := by
    intro hmem
    have hlive := h.lists.live p (by rw [List.append_assoc]; exact List.mem_append_right _ hmem)
    rw [hp] at hlive
    cases hlive
  have hcount : (s.ep.txlist ++ s.ep.rdllist).count p = 0 := List.count_eq_zero.mpr hunlinked
  have hnext : overflowed (s.ep.insertItem p ffd event).items p = 0 :=
    overflowed_of_live (v := ⟨.unactive, ffd, 0, 0, event⟩) (Function.update_self ..)
  simp only [System.due, queue, Mtx.inserted, Mtx.hand, List.nil_append, hnext]
  rw [Eventpoll.insertItem]
  dsimp only
  rw [hcount]
  simp

/-- Since its insertion an edge-triggered item is reported once for each callback, at most, and
    once for what the file was ready for at the insertion. -/
theorem edge_reports_le {pre post : List (Event φ τ)} {s₁ : System φ τ} {ffd : EpollFilefd φ} {event : EpollEvent}
    (hpre : Run Step start pre s) (hinsert : Step s (.insert p ffd event) s₁)
    (het : event.events &&& epollEt ≠ 0) (hpost : Run Step s₁ post u) (hdel : .insertFree p ∉ post) :
    post.countP (Event.isPut p) ≤ post.countP (Event.isCallback p) + 1 := by
  have hinv := run_inv hpre
  have hstart : (s₁.Inv ∧ ∃ v, s₁.ep.items p = some v ∧ v.event.events &&& epollEt ≠ 0) ∧ s₁.due p ≤ 1 := by
    refine ⟨⟨hinsert.inv hinv, ?_⟩, ?_⟩
    · cases hinsert
      refine ⟨_, Function.update_self .., fun hzero => het ?_⟩
      exact (FlagWord.or_and_eq_zero.mp hzero).1
    · cases hinsert with
      | insert hfree hrbr hp => exact due_insert hinv hp ffd _
  have hlabels : ∀ ev ∈ post, ev ≠ .insertFree p := by
    rintro ev hev rfl
    exact hdel hev
  have hbalance := Run.balance (I := fun s => s.Inv ∧ ∃ v, s.ep.items p = some v ∧ v.event.events &&& epollEt ≠ 0)
    (fun s => s.due p) (Event.isCallback p) (Event.isPut p)
    (fun s ev u hs hstep => by
      obtain ⟨v, hv, hbit⟩ := hs.2
      exact ⟨⟨hstep.1.inv hs.1, hstep.1.private (by decide) hs.1 hs.2 hstep.2⟩, hstep.1.due hs.1 hv hbit hstep.2⟩)
    (hpost.and_labels hlabels) hstart.1
  have hdue := hstart.2
  omega

theorem edge_reports_le_served :
    ((watched 0).tail ++ .device () 1 1 :: served).countP (Event.isPut 1) ≤
      ((watched 0).tail ++ .device () 1 1 :: served).countP (Event.isCallback 1) + 1 := by
  apply edge_reports_le (Run.nil start)
  · show Step start (.insert 1 ⟨(), 5⟩ ⟨1 ||| epollEt, 7⟩) _
    exact .insert rfl rfl rfl
  · decide
  · apply Run.cons (.queueProc rfl rfl)
    apply Run.cons (.insertPoll rfl rfl)
    apply Run.cons (.insertReady rfl rfl (by decide) rfl rfl)
    apply Run.cons (.device (by decide) (.inr (by decide)))
    apply Run.cons (.callback (by decide) rfl (.none (by rintro _ _ _ ⟨⟩)))
    apply Run.cons (.wait rfl (by decide))
    apply Run.cons (.look (.inl rfl))
    apply Run.cons (.splice rfl rfl)
    apply Run.cons (.take rfl rfl rfl (by decide))
    apply Run.cons (.poll rfl rfl)
    apply Run.cons (.put rfl rfl rfl)
    apply Run.cons (.stop rfl rfl (.inl rfl))
    apply Run.cons (.requeue rfl rfl (Yields.of_add 3 fun _ => rfl) rfl)
    apply Run.cons (.wait rfl (by decide))
    apply Run.cons (.look (.inl rfl))
    exact Run.nil _
  · simp [watched, served]

-- ---------------------------------------------------------------------------
-- One-shot items
-- ---------------------------------------------------------------------------

/-- The item is watched for events that are not private, and 1 is left for it. -/
def armed (s : System φ τ) (p : Ptr) : Nat :=
  match s.ep.items p with
  | none => 0
  | some v => if v.event.events &&& ~~~privateBits = 0 then 0 else 1

/-- What a scan has found ready and has not reported yet is armed. -/
structure Found (s : System φ τ) : Prop where
  inv : s.Inv
  level : s.Level
  put : ∀ t sent p r, s.mtx = .scan t sent (.put p r) → s.armed p = 1

omit [DecidableEq φ] [DecidableEq τ] in
theorem armed_of_event (hv : s.ep.items p = some v) (hw : u.ep.items p = some w) (hevent : w.event = v.event) :
    u.armed p = s.armed p := by
  simp only [armed, hv, hw, hevent]

omit [DecidableEq φ] [DecidableEq τ] in
theorem armed_of_ready (hfiles : s.files v.ffd.file &&& privateBits = 0) (hv : s.ep.items p = some v)
    (hready : s.files v.ffd.file &&& v.event.events ≠ 0) : s.armed p = 1 := by
  simp only [armed, hv]
  exact if_neg fun hoff => hready (FlagWord.and_eq_zero_of_le hfiles hoff)

omit [DecidableEq φ] [DecidableEq τ] in
theorem armed_of_disable (hw : s.ep.items p = some v.disable) : s.armed p = 0 := by
  simp only [armed, hw]
  refine if_pos ?_
  simp [Epitem.disable, BitVec.and_assoc]

omit [DecidableEq φ] [DecidableEq τ] in
theorem Found.live {t : τ} {sent : List EpollEvent} {r : Events} (h : s.Found)
    (hmtx : s.mtx = .scan t sent (.put p r)) : ∃ v, s.ep.items p = some v := by
  have hp := h.put t sent p r hmtx
  unfold armed at hp
  split at hp
  · cases hp
  · rename_i v hv
    exact ⟨v, hv⟩

/-- A scan copies an event of an item that it has found ready. -/
theorem Step.put_of_poll {t : τ} {sent : List EpollEvent} {r : Events} (hstep : Step s ev u)
    (hmtx : u.mtx = .scan t sent (.put p r)) :
    (s.mtx = .scan t sent (.put p r) ∧ ev ≠ .insertFree p ∧ ∀ r', ev ≠ .put p r') ∨
      ev = .poll p ∧ u.ep = s.ep ∧
        ∃ v, s.ep.items p = some v ∧ s.files v.ffd.file &&& v.event.events = r ∧ r ≠ 0 := by
  cases hstep with
  | device _ _ | consume | callback _ _ _ | queueProc _ _ | wait _ _ | look _ | wakeUp _ _ =>
    exact .inl ⟨hmtx, by simp, by simp⟩
  | insert _ _ _ | insertPoll _ _ | insertReady _ _ _ _ _ | unregister _ _ _ | insertFree _ _ => cases hmtx
  | splice _ _ | take _ _ _ _ | stop _ _ _ | put _ _ _ | fault _ | requeue _ _ _ _ => cases hmtx
  | @poll t' sent' q v _ hv =>
    refine .inr ?_
    unfold polled at hmtx
    split at hmtx
    · rename_i hready
      cases hmtx
      exact ⟨rfl, rfl, v, hv, rfl, hready⟩
    · cases hmtx

theorem Step.found (hstep : Step s ev u) (h : s.Found) : u.Found := by
  refine ⟨hstep.inv h.inv, hstep.level h.inv h.level, fun t sent p r hmtx => ?_⟩
  rcases hstep.put_of_poll hmtx with ⟨hs, hdel, hno⟩ | ⟨-, hep, v, hv, hr, hne⟩
  · obtain ⟨v, hv⟩ := h.live hs
    obtain ⟨w, hw, -, hevent⟩ := hstep.item h.inv hv hdel
    replace hevent : w.event = v.event := by
      refine hevent.resolve_right ?_
      rintro ⟨-, ⟨r', hr'⟩, -⟩
      exact hno r' hr'
    rw [armed_of_event hv hw hevent]
    exact h.put t sent p r hs
  · rw [armed_of_event hv (hep ▸ hv) rfl]
    exact armed_of_ready (h.level.files _) hv (hr ▸ hne)

/-- A one-shot item is not armed any more once it is reported. -/
theorem Step.armed (hstep : Step s ev u) (h : s.Found) (hv : s.ep.items p = some v)
    (hone : v.event.events &&& epollOneshot ≠ 0) (hdel : ev ≠ .insertFree p) :
    u.armed p + (ev.isPut p).toNat ≤ s.armed p := by
  obtain ⟨w, hw, -, hevent⟩ := hstep.item h.inv hv hdel
  by_cases hput : ∃ r, ev = .put p r
  · obtain ⟨r, rfl⟩ := hput
    cases hstep with
    | @put t sent _ _ v' e hmtx hv' hrun =>
      obtain rfl := Option.some.inj (hv.symm.trans hv')
      rcases sendPut_cases hv hrun with ⟨-, rfl⟩ | ⟨hzero, -, -⟩ | ⟨hzero, -, -⟩
      · rw [h.put t sent p r hmtx, armed_of_disable (v := v) (Function.update_self ..)]
        simp [Event.isPut]
      · exact absurd hzero hone
      · exact absurd hzero hone
  · have hno : ev.isPut p = false := by
      cases ev with
      | put q r =>
        refine decide_eq_false ?_
        rintro rfl
        exact hput ⟨r, rfl⟩
      | _ => rfl
    rw [armed_of_event hv hw (hevent.resolve_right fun hd => hput hd.2.1), hno]
    exact Nat.le_refl _

/-- No run reports a one-shot item twice. -/
theorem oneshot_reports_le {pre post : List (Event φ τ)} (hpre : Run Step start pre s)
    (hv : s.ep.items p = some v) (hone : v.event.events &&& epollOneshot ≠ 0) (hpost : Run Step s post u)
    (hdel : .insertFree p ∉ post) : post.countP (Event.isPut p) ≤ 1 := by
  have hfound : s.Found :=
    Run.invariant (I := Found) (fun _ _ _ hs hstep => hstep.found hs) hpre
      ⟨start_inv, start_level, fun _ _ _ _ hmtx => by cases hmtx⟩
  have hlabels : ∀ ev ∈ post, ev ≠ .insertFree p := by
    rintro ev hev rfl
    exact hdel hev
  have hbalance := Run.balance
    (I := fun s => s.Found ∧ ∃ v, s.ep.items p = some v ∧ v.event.events &&& epollOneshot ≠ 0)
    (fun s => s.armed p) (fun _ => false) (Event.isPut p)
    (fun s ev u hs hstep => by
      obtain ⟨v, hv, hbit⟩ := hs.2
      refine ⟨⟨hstep.1.found hs.1, hstep.1.private (by decide) hs.1.inv hs.2 hstep.2⟩, ?_⟩
      exact hstep.1.armed hs.1 hv hbit hstep.2)
    (hpost.and_labels hlabels) ⟨hfound, v, hv, hone⟩
  have harmed : s.armed p ≤ 1 := by
    simp only [armed, hv]
    split <;> omega
  have hnone : post.countP (fun _ => false) = 0 := by simp
  omega

theorem oneshot_reports_le_served : (.device () 1 1 :: served).countP (Event.isPut 1) ≤ 1 := by
  apply oneshot_reports_le (v := ⟨.unactive, ⟨(), 5⟩, 1, 1, ctlEvent ⟨1 ||| epollOneshot, 7⟩⟩)
  · show Run Step start (watched (1 ||| epollOneshot)) _
    apply Run.cons (.insert rfl rfl rfl)
    apply Run.cons (.queueProc rfl rfl)
    apply Run.cons (.insertPoll rfl rfl)
    apply Run.cons (.insertReady rfl rfl (by decide) rfl rfl)
    exact Run.nil _
  · rfl
  · decide
  · apply Run.cons (.device (by decide) (.inr (by decide)))
    apply Run.cons (.callback (by decide) rfl (.none (by rintro _ _ _ ⟨⟩)))
    apply Run.cons (.wait rfl (by decide))
    apply Run.cons (.look (.inl rfl))
    apply Run.cons (.splice rfl rfl)
    apply Run.cons (.take rfl rfl rfl (by decide))
    apply Run.cons (.poll rfl rfl)
    apply Run.cons (.put rfl rfl rfl)
    apply Run.cons (.stop rfl rfl (.inl rfl))
    apply Run.cons (.requeue rfl rfl (Yields.of_add 3 fun _ => rfl) rfl)
    apply Run.cons (.wait rfl (by decide))
    apply Run.cons (.look (.inl rfl))
    exact Run.nil _
  · simp [served]

-- ---------------------------------------------------------------------------
-- Turns
-- ---------------------------------------------------------------------------

/-- The queue changes at its ends: items are appended, and the head leaves when it is polled or
    reported. Only an item whose insertion fails leaves from between. -/
theorem Step.queue (hstep : Step s ev u) (h : s.Inv) :
    ((∃ new, u.queue = s.queue ++ new) ∧ ev.isReport = false) ∨
      (∃ q, ev = .insertFree q ∧ u.queue = s.queue.erase q) ∨
      ∃ q rest new, s.queue = q :: rest ∧ u.queue = rest ++ new ∧
        (ev = .poll q ∨ ∃ t sent r, s.mtx = .scan t sent (.put q r)) := by
  have hsame : u.queue = s.queue → ∃ new, u.queue = s.queue ++ new := fun heq => ⟨[], by rw [heq, List.append_nil]⟩
  cases hstep with
  | device _ _ | consume | wait _ _ | look _ | wakeUp _ _ => exact .inl ⟨hsame rfl, rfl⟩
  | @callback q key e wakes threads hmem hrun hwake =>
    obtain ⟨w, hw, -⟩ := h.registry.calls q (List.ne_nil_of_mem hmem)
    rcases pollCallback_cases hw hrun with ⟨rfl, -, -⟩ | ⟨-, hovf, hnext, -, rfl⟩ | ⟨-, -, -, rfl⟩
    · exact .inl ⟨hsame rfl, rfl⟩
    · exact .inl ⟨hsame rfl, rfl⟩
    · refine .inl ⟨⟨[q].filter fun r => ¬ s.ep.IsLinked r, ?_⟩, rfl⟩
      simp only [System.queue, addReady_txlist, addReady_rdllist, List.append_assoc]
  | insert hfree _ _ =>
    refine .inl ⟨hsame ?_, rfl⟩
    simp only [System.queue, hfree, Mtx.hand]
    rfl
  | @queueProc q allocated e hmtx hrun =>
    obtain ⟨w, hw, -⟩ := h.registry.inserting q .poll (by rw [hmtx]; rfl)
    obtain ⟨n, k, -, rfl⟩ := ptableQueueProc_cases hw hrun
    exact .inl ⟨hsame rfl, rfl⟩
  | insertPoll hmtx _ | unregister hmtx _ _ =>
    refine .inl ⟨hsame ?_, rfl⟩
    simp only [System.queue, hmtx, Mtx.hand]
  | @insertReady q revents w e wakes threads hmtx hw _ hrun hwake =>
    rcases insertReady_cases hw hrun with ⟨-, -, rfl⟩ | ⟨-, -, rfl⟩
    · refine .inl ⟨⟨[q].filter fun r => ¬ s.ep.IsLinked r, ?_⟩, rfl⟩
      simp only [System.queue, hmtx, Mtx.hand, addReady_txlist, addReady_rdllist, List.append_assoc]
      rfl
    · refine .inl ⟨hsame ?_, rfl⟩
      simp only [System.queue, hmtx, Mtx.hand]
  | @insertFree q e hmtx hrun =>
    obtain ⟨w, hw, -⟩ := h.registry.inserting q .unregistered (by rw [hmtx]; rfl)
    obtain rfl := insertFree_eq hw hrun
    have htx := h.lists.txlist (h.noScan fun t sent phase hmtx' => by rw [hmtx] at hmtx'; cases hmtx').1
    refine .inr (.inl ⟨q, rfl, ?_⟩)
    simp only [System.queue, hmtx, Mtx.hand, htx, List.nil_append]
  | @splice t m j ht hfree =>
    have htx := h.lists.txlist (h.noScan fun t sent phase hmtx => by rw [hfree] at hmtx; cases hmtx).1
    refine .inl ⟨hsame ?_, rfl⟩
    simp only [System.queue, hfree, Mtx.hand, htx, Eventpoll.scanSplice, List.nil_append, List.append_nil]
  | @take t sent m j q rest hmtx ht htx _ =>
    refine .inl ⟨hsame ?_, rfl⟩
    simp only [System.queue, hmtx, Mtx.hand, htx]
    rfl
  | stop hmtx _ _ =>
    refine .inl ⟨hsame ?_, rfl⟩
    simp only [System.queue, hmtx, Mtx.hand]
  | @poll t sent q v' hmtx _ =>
    by_cases hready : s.files v'.ffd.file &&& v'.event.events ≠ 0
    · refine .inl ⟨hsame ?_, rfl⟩
      simp only [System.queue, hmtx, polled, if_pos hready, Mtx.hand]
    · refine .inr (.inr ⟨q, s.ep.txlist ++ s.ep.rdllist, [], ?_, ?_, .inl rfl⟩)
      · simp only [System.queue, hmtx, Mtx.hand]
        rfl
      · simp only [System.queue, polled, if_neg hready, Mtx.hand, List.nil_append, List.append_nil]
  | @put t sent q revents w e hmtx hw hrun =>
    have hhead : s.queue = q :: (s.ep.txlist ++ s.ep.rdllist) := by
      simp only [System.queue, hmtx, Mtx.hand]
      rfl
    rcases sendPut_cases hw hrun with ⟨-, rfl⟩ | ⟨-, -, rfl⟩ | ⟨-, -, rfl⟩
    · exact .inr (.inr ⟨q, _, [], hhead, (List.append_nil _).symm, .inr ⟨t, sent, revents, hmtx⟩⟩)
    · refine .inr (.inr ⟨q, _, [q], hhead, ?_, .inr ⟨t, sent, revents, hmtx⟩⟩)
      simp only [System.queue, Mtx.hand, List.nil_append, List.append_assoc]
    · exact .inr (.inr ⟨q, _, [], hhead, (List.append_nil _).symm, .inr ⟨t, sent, revents, hmtx⟩⟩)
  | fault hmtx =>
    refine .inl ⟨hsame ?_, rfl⟩
    simp only [System.queue, hmtx, Mtx.hand]
    rfl
  | @requeue t sent res m j e threads hmtx ht hrun hwake =>
    obtain ⟨ps, -, hreq⟩ := h.requeued hmtx hrun
    refine .inl ⟨⟨ps.filter fun q => ¬ s.ep.IsLinked q, ?_⟩, rfl⟩
    simp only [System.queue, hmtx, Mtx.hand, hreq.txlist, hreq.rdllist, List.nil_append, ← List.append_assoc]

theorem idxOf_erase_le {l : List Ptr} (hpq : p ≠ q) : (l.erase q).idxOf p ≤ l.idxOf p := by
  induction l with
  | nil => exact Nat.le_refl _
  | cons x l ih =>
    by_cases hxq : x = q
    · subst hxq
      rw [List.erase_cons_head, List.idxOf_cons_ne _ hpq.symm]
      exact Nat.le_succ _
    · rw [List.erase_cons_tail (by simpa using hxq)]
      by_cases hxp : x = p
      · rw [hxp, List.idxOf_cons_self]
        exact Nat.zero_le _
      · rw [List.idxOf_cons_ne _ hxp, List.idxOf_cons_ne _ hxp]
        exact Nat.succ_le_succ ih

/-- The item waits for its turn. -/
structure Waits (s : System φ τ) (p : Ptr) : Prop where
  inv : s.Inv
  queue : p ∈ s.queue
  unpolled : ∀ t sent r, s.mtx ≠ .scan t sent (.put p r)

theorem Step.waits (hstep : Step s ev u) (hpoll : ev ≠ .poll p) (hdel : ev ≠ .insertFree p) (h : s.Waits p) :
    u.Waits p ∧ u.queue.idxOf p + ev.isReport.toNat ≤ s.queue.idxOf p := by
  have hinv := hstep.inv h.inv
  have hunpolled : ∀ t sent r, u.mtx ≠ .scan t sent (.put p r) := by
    intro t sent r hmtx
    rcases hstep.put_of_poll hmtx with ⟨hs, -⟩ | ⟨hev, -⟩
    · exact h.unpolled t sent r hs
    · exact hpoll hev
  have hmem := h.queue
  rcases hstep.queue h.inv with ⟨⟨new, hq⟩, hno⟩ | ⟨q, rfl, hq⟩ | ⟨q, rest, new, hs, hq, hhead⟩
  · refine ⟨⟨hinv, ?_, hunpolled⟩, ?_⟩
    · rw [hq]
      exact List.mem_append_left _ hmem
    · rw [hq, hno, List.idxOf_append_of_mem hmem]
      exact Nat.le_refl _
  · have hpq : p ≠ q := by
      rintro rfl
      exact hdel rfl
    refine ⟨⟨hinv, ?_, hunpolled⟩, ?_⟩
    · rw [hq]
      exact (List.mem_erase_of_ne hpq).mpr hmem
    · rw [hq]
      exact idxOf_erase_le hpq
  · have hpq : q ≠ p := by
      rintro rfl
      rcases hhead with hev | ⟨t, sent, r, hmtx⟩
      · exact hpoll hev
      · exact h.unpolled t sent r hmtx
    rw [hs] at hmem ⊢
    have hrest : p ∈ rest := (List.mem_cons.mp hmem).resolve_left hpq.symm
    refine ⟨⟨hinv, ?_, hunpolled⟩, ?_⟩
    · rw [hq]
      exact List.mem_append_left _ hrest
    · rw [hq, List.idxOf_append_of_mem hrest, List.idxOf_cons_ne _ hpq]
      exact Nat.add_le_add_left (Bool.toNat_le _) _

/-- Before an item of the ready list is polled, no more items are reported than stand in front of
    it, whatever becomes ready meanwhile, and however many calls there are. -/
theorem overtaken_le {pre post : List (Event φ τ)} (hpre : Run Step start pre s)
    (hp : p ∈ s.ep.txlist ++ s.ep.rdllist) (hpost : Run Step s post u) (hpoll : .poll p ∉ post)
    (hdel : .insertFree p ∉ post) : post.countP Event.isReport ≤ s.queue.idxOf p := by
  have hinv := run_inv hpre
  have hwaits : s.Waits p := by
    refine ⟨hinv, ?_, fun t sent r hmtx => ?_⟩
    · rw [queue, List.append_assoc]
      exact List.mem_append_right _ hp
    · have hnodup := hinv.lists.nodup
      rw [hmtx, List.append_assoc] at hnodup
      exact (List.nodup_cons.mp hnodup).1 hp
  have hlabels : ∀ ev ∈ post, ev ≠ .poll p ∧ ev ≠ .insertFree p := by
    intro ev hev
    constructor
    · rintro rfl
      exact hpoll hev
    · rintro rfl
      exact hdel hev
  have hbalance := Run.balance (I := fun s => s.Waits p) (fun s => s.queue.idxOf p) (fun _ => false) Event.isReport
    (fun s ev u hs hstep => hstep.1.waits hstep.2.1 hstep.2.2 hs) (hpost.and_labels hlabels) hwaits
  have hnone : post.countP (fun _ => false) = 0 := by simp
  omega

/-- Two items of a file, and a call that asks for one event. -/
theorem overtaken_le_second : ∃ s : System Unit Unit, s.ep.rdllist = [1, 2] ∧
    ([.wait () 1 none, .look () false, .splice (), .next, .poll 1, .put 1 1, .next, .requeue] :
      List (Event Unit Unit)).countP Event.isReport ≤ s.queue.idxOf 2 := by
  apply Exists.intro
  refine ⟨?_, ?_⟩
  rotate_left
  · apply overtaken_le
    · show Run Step start (watched 1 ++ [.insert 2 ⟨(), 6⟩ ⟨1, 8⟩, .queueProc true, .insertPoll, .insertReady 2,
        .device () 1 1, .callback 1 1, .callback 2 1]) _
      apply Run.cons (.insert rfl rfl rfl)
      apply Run.cons (.queueProc rfl rfl)
      apply Run.cons (.insertPoll rfl rfl)
      apply Run.cons (.insertReady rfl rfl (by decide) rfl rfl)
      apply Run.cons (.insert rfl rfl rfl)
      apply Run.cons (.queueProc rfl rfl)
      apply Run.cons (.insertPoll rfl rfl)
      apply Run.cons (.insertReady rfl rfl (by decide) rfl rfl)
      apply Run.cons (.device (by decide) (.inr (by decide)))
      apply Run.cons (.callback (by decide) rfl (.none (by rintro _ _ _ ⟨⟩)))
      apply Run.cons (.callback (by decide) rfl (.none (by rintro _ _ _ ⟨⟩)))
      exact Run.nil _
    · decide
    · apply Run.cons (.wait rfl (by decide))
      apply Run.cons (.look (.inl rfl))
      apply Run.cons (.splice rfl rfl)
      apply Run.cons (.take rfl rfl rfl (by decide))
      apply Run.cons (.poll rfl rfl)
      apply Run.cons (.put rfl rfl rfl)
      apply Run.cons (.stop rfl rfl (.inr (by decide)))
      apply Run.cons (.requeue rfl rfl (Yields.of_add 3 fun _ => rfl) (.none (by rintro _ _ _ ⟨⟩)))
      exact Run.nil _
    · simp
    · simp
  · rfl

-- ---------------------------------------------------------------------------
-- Calls
-- ---------------------------------------------------------------------------

/-- A thread scans until it has requeued the items. -/
theorem Step.scanning {t : τ} {m : Nat} {j : Jiffies} (hstep : Step s ev u) (hne : ev ≠ .requeue)
    (ht : s.threads t = .scanning m j) : u.threads t = .scanning m j := by
  have hother : ∀ {t' : τ} {x : Thread}, s.threads t' ≠ s.threads t →
      Function.update s.threads t' x t = .scanning m j := by
    intro t' x hthreads
    rw [Function.update_of_ne, ht]
    rintro rfl
    exact hthreads rfl
  cases hstep with
  | callback _ _ hwake | insertReady _ _ _ _ hwake => exact (WakeUpIf.scanning hwake).mpr ht
  | wait ht' _ | wakeUp ht' _ | splice ht' _ => exact hother (by simp [ht, ht'])
  | look ht' => exact hother (by rcases ht' with ht' | ht' <;> simp [ht, ht'])
  | requeue _ _ _ _ => exact absurd rfl hne
  | _ => exact ht

/-- What the thread has copied since it took the ready list. -/
structure Scanned (t : τ) (m : Nat) (j : Jiffies) (es : List (Event φ τ)) (s : System φ τ) : Prop where
  inv : s.Inv
  thread : s.threads t = .scanning m j
  nodup : (es.filterMap Event.reported).Nodup
  fresh : ∀ q ∈ es.filterMap Event.reported, q ∉ s.mtx.hand ++ s.ep.txlist
  scan : ∃ sent phase, s.mtx = .scan t sent phase ∧ sent.length = (es.filterMap Event.reported).length ∧
    sent.length + s.mtx.hand.length ≤ m ∧
    ∀ res, phase = .done res → res = sent.length ∨ sent = [] ∧ res = -efault

omit [DecidableEq φ] [DecidableEq τ] in
/-- A step that reports nothing moves no item to where it could be taken. -/
theorem Scanned.keep {t : τ} {m : Nat} {j : Jiffies} {es : List (Event φ τ)} {sent : List EpollEvent}
    {phase phase' : Scan} (h : Scanned t m j es s) (hinv : u.Inv) (ht : u.threads t = .scanning m j)
    (hno : ev.reported = none) (hmtx : s.mtx = .scan t sent phase) (hmtx' : u.mtx = .scan t sent phase')
    (hsub : ∀ q ∈ (Mtx.scan t sent phase').hand ++ u.ep.txlist, q ∈ (Mtx.scan t sent phase).hand ++ s.ep.txlist)
    (hroom : sent.length + (Mtx.scan t sent phase).hand.length ≤ m →
      sent.length + (Mtx.scan t sent phase').hand.length ≤ m)
    (hres : ∀ res, phase' = .done res → phase = .done res ∨ res = sent.length ∨ sent = [] ∧ res = -efault) :
    Scanned t m j (es ++ [ev]) u := by
  have hreported : (es ++ [ev]).filterMap Event.reported = es.filterMap Event.reported := by
    rw [List.filterMap_append, List.filterMap_cons_none hno, List.filterMap_nil, List.append_nil]
  obtain ⟨sent₀, phase₀, hmtx₀, hlen, hle, hdone⟩ := h.scan
  rw [hmtx] at hmtx₀
  cases hmtx₀
  have hfresh := h.fresh
  rw [hmtx] at hle hfresh
  refine ⟨hinv, ht, ?_, ?_, sent, phase', hmtx', ?_, ?_, fun res hphase => ?_⟩
  · rw [hreported]
    exact h.nodup
  · rw [hreported, hmtx']
    exact fun q hq hmem => hfresh q hq (hsub q hmem)
  · rw [hreported]
    exact hlen
  · rw [hmtx']
    exact hroom hle
  · exact (hres res hphase).elim (hdone res) id

theorem Step.scanned {t : τ} {m : Nat} {j : Jiffies} {es : List (Event φ τ)} (hstep : Step s ev u)
    (hne : ev ≠ .requeue) (h : Scanned t m j es s) : Scanned t m j (es ++ [ev]) u := by
  have hinv := hstep.inv h.inv
  have ht := hstep.scanning hne h.thread
  obtain ⟨sent, phase, hmtx, hlen, hle, hres⟩ := h.scan
  cases hstep with
  | device _ _ | consume | wait _ _ | look _ | wakeUp _ _ =>
    exact h.keep hinv ht rfl hmtx hmtx (fun q hq => hq) id fun res hphase => .inl hphase
  | @callback q key e wakes threads hmem hrun hwake =>
    obtain ⟨w, hw, -⟩ := h.inv.registry.calls q (List.ne_nil_of_mem hmem)
    have htx : e.txlist = s.ep.txlist := by
      rcases pollCallback_cases hw hrun with ⟨rfl, -, -⟩ | ⟨-, -, -, -, rfl⟩ | ⟨-, -, -, rfl⟩
      · rfl
      · rfl
      · exact addReady_txlist
    refine h.keep hinv ht rfl hmtx hmtx (fun q hq => ?_) id fun res hphase => .inl hphase
    dsimp only at hq
    rwa [htx] at hq
  | insert hmtx' _ _ | queueProc hmtx' _ | insertPoll hmtx' _ | insertReady hmtx' _ _ _ _ =>
    rw [hmtx] at hmtx'
    cases hmtx'
  | unregister hmtx' _ _ | insertFree hmtx' _ | splice _ hmtx' =>
    rw [hmtx] at hmtx'
    cases hmtx'
  | @take t' sent' m' j' q rest hmtx' ht' htx hroom =>
    rw [hmtx] at hmtx'
    cases hmtx'
    rw [h.thread] at ht'
    cases ht'
    refine h.keep hinv ht rfl hmtx rfl (fun r hr => ?_) (fun _ => hroom) fun res hphase => by cases hphase
    rw [htx]
    exact List.mem_append_right _ hr
  | stop hmtx' _ _ =>
    rw [hmtx] at hmtx'
    cases hmtx'
    refine h.keep hinv ht rfl hmtx rfl (fun r hr => List.mem_append_right _ hr) (fun hroom => ?_) fun res hphase => ?_
    · exact (Nat.le_add_right ..).trans hroom
    · cases hphase
      exact .inr (.inl rfl)
  | @poll t' sent' q v hmtx' _ =>
    rw [hmtx] at hmtx'
    cases hmtx'
    by_cases hready : s.files v.ffd.file &&& v.event.events ≠ 0
    · have hput : Mtx.scan t sent (polled q (s.files v.ffd.file &&& v.event.events)) = .scan t sent (.put q _) :=
        congrArg (Mtx.scan t sent) (if_pos hready)
      exact h.keep hinv ht rfl hmtx hput (fun r hr => hr) id fun res hphase => by cases hphase
    · have hloop : Mtx.scan t sent (polled q (s.files v.ffd.file &&& v.event.events)) = .scan t sent .loop :=
        congrArg (Mtx.scan t sent) (if_neg hready)
      exact h.keep hinv ht rfl hmtx hloop (fun r hr => List.mem_append_right _ hr)
        (fun hroom => (Nat.le_add_right ..).trans hroom) fun res hphase => by cases hphase
  | @put t' sent' q revents v e hmtx' hw hrun =>
    rw [hmtx] at hmtx'
    cases hmtx'
    have htx : e.txlist = s.ep.txlist := by
      rcases sendPut_cases hw hrun with ⟨-, rfl⟩ | ⟨-, -, rfl⟩ | ⟨-, -, rfl⟩ <;> rfl
    have hlists := h.inv.lists.nodup
    have hfresh := h.fresh
    rw [hmtx] at hlists hfresh hle
    have hq : q ∉ s.ep.txlist := (List.nodup_cons.mp hlists.of_append_left).1
    have hreported : (es ++ [Event.put q revents]).filterMap Event.reported = es.filterMap Event.reported ++ [q] := by
      rw [List.filterMap_append]
      rfl
    refine ⟨hinv, ht, ?_, fun r hr => ?_, _, _, rfl, ?_, ?_, fun res hphase => by cases hphase⟩
    · rw [hreported, ← List.concat_eq_append, List.nodup_concat]
      exact ⟨fun hmem => hfresh q hmem List.mem_cons_self, h.nodup⟩
    · rw [hreported, List.mem_append, List.mem_singleton] at hr
      show r ∉ e.txlist
      rw [htx]
      rcases hr with hr | rfl
      · exact fun hmem => hfresh r hr (List.mem_append_right _ hmem)
      · exact hq
    · rw [hreported, List.length_append, List.length_append, hlen]
      rfl
    · rw [List.length_append]
      exact hle
  | @fault t' sent' q revents hmtx' =>
    rw [hmtx] at hmtx'
    cases hmtx'
    refine h.keep hinv ht rfl hmtx rfl (fun r hr => hr) (fun hroom => ?_) fun res hphase => ?_
    · exact (Nat.le_add_right ..).trans hroom
    · cases hphase
      cases sent with
      | nil => exact .inr (.inr ⟨rfl, rfl⟩)
      | cons x sent => exact .inr (.inl rfl)
  | requeue _ _ _ _ => exact absurd rfl hne

/-- A call of `epoll_wait` reports no item twice, and not more than it asked for. It returns their
    number, or goes on waiting if there were none. -/
theorem scan_reports {pre es : List (Event φ τ)} {s₁ s₂ : System φ τ} {t : τ} {m : Nat} {j : Jiffies}
    (hpre : Run Step start pre s) (ht : s.threads t = .send m j) (hsplice : Step s (.splice t) s₁)
    (hscan : Run Step s₁ es s₂) (hes : .requeue ∉ es) (hrequeue : Step s₂ .requeue u) :
    (es.filterMap Event.reported).Nodup ∧ (es.filterMap Event.reported).length ≤ m ∧
      (u.threads t = .returned (es.filterMap Event.reported).length ∨
        es.filterMap Event.reported = [] ∧ (u.threads t = .retry m j ∨ u.threads t = .returned (-efault))) := by
  have hstart : Scanned t m j [] s₁ := by
    refine ⟨hsplice.inv (run_inv hpre), ?_, List.nodup_nil, (fun q hq => by cases hq), ?_⟩
    · cases hsplice with
      | splice ht' _ =>
        rw [ht] at ht'
        cases ht'
        exact Function.update_self ..
    · cases hsplice with
      | splice _ _ => exact ⟨[], .loop, rfl, rfl, Nat.zero_le _, fun res hphase => by cases hphase⟩
  have hlabels : ∀ ev ∈ es, ev ≠ .requeue := by
    rintro ev hev rfl
    exact hes hev
  have hscanned : Scanned t m j es s₂ :=
    Run.history (I := fun es s => Scanned t m j es s) (fun es s ev u hs hstep => hstep.1.scanned hstep.2 hs)
      (hscan.and_labels hlabels) hstart
  obtain ⟨sent, phase, hmtx, hlen, hle, hres⟩ := hscanned.scan
  refine ⟨hscanned.nodup, hlen ▸ (Nat.le_add_right ..).trans hle, ?_⟩
  cases hrequeue with
  | @requeue t' sent' res m' j' e threads hmtx' ht' _ _ =>
    rw [hmtx] at hmtx'
    cases hmtx'
    rw [hscanned.thread] at ht'
    cases ht'
    have hnil : sent = [] → es.filterMap Event.reported = [] := by
      rintro rfl
      exact List.eq_nil_of_length_eq_zero hlen.symm
    simp only [Function.update_self, epPollSent]
    rcases hres res rfl with hcount | ⟨hsent, hfault⟩
    · split
      · rename_i hzero
        rw [hcount] at hzero
        refine .inr ⟨hnil (List.eq_nil_of_length_eq_zero (by omega)), .inl rfl⟩
      · rw [hcount, hlen]
        exact .inl rfl
    · rw [hfault, if_neg fun hzero => absurd hzero.1 (by decide)]
      exact .inr ⟨hnil hsent, .inr rfl⟩

/-- A file is watched and gets ready, and a thread calls `epoll_wait`. -/
def awaited : List (Event Unit Unit) :=
  watched 1 ++ [.device () 1 1, .callback 1 1, .wait () 4 none, .look () false]

/-- What the thread does with the transfer list. -/
def sends : List (Event Unit Unit) :=
  [.next, .poll 1, .put 1 1, .next]

theorem sends_run : ∃ (s s₁ s₂ u : System Unit Unit), Run Step start awaited s ∧ s.threads () = .send 4 none ∧
    Step s (.splice ()) s₁ ∧ Run Step s₁ sends s₂ ∧ Step s₂ .requeue u := by
  iterate 4 apply Exists.intro
  apply And.intro
  · apply Run.cons (.insert rfl rfl rfl)
    apply Run.cons (.queueProc rfl rfl)
    apply Run.cons (.insertPoll rfl rfl)
    apply Run.cons (.insertReady rfl rfl (by decide) rfl rfl)
    apply Run.cons (.device (by decide) (.inr (by decide)))
    apply Run.cons (.callback (by decide) rfl (.none (by rintro _ _ _ ⟨⟩)))
    apply Run.cons (.wait rfl (by decide))
    apply Run.cons (.look (.inl rfl))
    exact Run.nil _
  · refine ⟨rfl, .splice rfl rfl, ?_⟩
    apply And.intro
    · apply Run.cons (.take rfl rfl rfl (by decide))
      apply Run.cons (.poll rfl rfl)
      apply Run.cons (.put rfl rfl rfl)
      apply Run.cons (.stop rfl rfl (.inl rfl))
      exact Run.nil _
    · exact .requeue rfl rfl (Yields.of_add 3 fun _ => rfl) (.none (by rintro _ _ _ ⟨⟩))

theorem scan_reports_served : ∃ u, Run Step start (awaited ++ .splice () :: (sends ++ [.requeue])) u ∧
    (sends.filterMap Event.reported).Nodup ∧ (sends.filterMap Event.reported).length ≤ 4 ∧
      (u.threads () = .returned 1 ∨ sends.filterMap Event.reported = [] ∧
        (u.threads () = .retry 4 none ∨ u.threads () = .returned (-efault))) := by
  obtain ⟨s, s₁, s₂, u, hpre, ht, hsplice, hscan, hrequeue⟩ := sends_run
  exact ⟨u, Run.append_iff.mpr ⟨s, hpre, .cons hsplice (Run.append_iff.mpr ⟨s₂, hscan, .cons hrequeue (.nil u)⟩)⟩,
    scan_reports hpre ht hsplice hscan (by simp [sends]) hrequeue⟩

end System

end Epoll
