-- SUMMARY: What becomes of events: every one is polled for before the waiting threads all sleep, and a level-triggered item that is ready never goes unnoticed.
import LinuxLearning.Common.FlagWord
import LinuxLearning.Epoll.Safety

/-!
# Readiness

A file that becomes ready calls back its items. An item that wants the event is queued, until
a scan polls it. Three facts make a sleep safe: an event is not forgotten before its item is
polled, a level-triggered item that was ready when it was polled is queued again, and a thread
that could collect the items of the ready list is awake as long as there are any.
-/

namespace Epoll

open Memory SinglyLinked Transition

namespace System

variable {φ τ : Type} {s u : System φ τ} {ev : Event φ τ} {p q : Ptr} {v w : Epitem φ}

/-- A scan has the item on a list, or is about to poll it. -/
def Queued (s : System φ τ) (p : Ptr) : Prop :=
  s.ep.IsLinked p ∨ (∃ v, s.ep.items p = some v ∧ v.next ≠ .unactive) ∨ ∃ t sent, s.mtx = .scan t sent (.poll p)

/-- A callback is under way that will queue the item. -/
def Called (s : System φ τ) (p : Ptr) : Prop :=
  ∃ v key, s.ep.items p = some v ∧ key ∈ s.calls p ∧ v.Wants key

variable [DecidableEq φ] [DecidableEq τ]

-- ---------------------------------------------------------------------------
-- Items
-- ---------------------------------------------------------------------------

/-- An item stays until it is freed, and its events change by a report only. -/
theorem Step.item (hstep : Step s ev u) (h : s.Inv) (hv : s.ep.items p = some v) (hdel : ev ≠ .insertFree p) :
    ∃ w, u.ep.items p = some w ∧ w.ffd = v.ffd ∧
      (w.event = v.event ∨ v.event.events &&& epollOneshot ≠ 0 ∧ (∃ r, ev = .put p r) ∧ w.event = v.disable.event) := by
  have hother : ∀ {q : Ptr} {w : Epitem φ}, q ≠ p → Function.update s.ep.items q (some w) p = some v :=
    fun hq => (Function.update_of_ne hq.symm ..).trans hv
  cases hstep with
  | @callback q key e wakes threads hmem hrun hwake =>
    obtain ⟨w, hw, -⟩ := h.registry.calls q (List.ne_nil_of_mem hmem)
    rcases pollCallback_cases hw hrun with ⟨rfl, -, -⟩ | ⟨-, -, -, -, rfl⟩ | ⟨-, -, -, rfl⟩
    · exact ⟨v, hv, rfl, .inl rfl⟩
    · by_cases hqp : q = p
      · subst hqp
        obtain rfl := Option.some.inj (hv.symm.trans hw)
        exact ⟨_, Function.update_self .., rfl, .inl rfl⟩
      · exact ⟨v, hother hqp, rfl, .inl rfl⟩
    · exact ⟨v, by rw [addReady_items, hv], rfl, .inl rfl⟩
  | @insert q ffd event _ hrbr hq =>
    have hqp : q ≠ p := by
      rintro rfl
      rw [hq] at hv
      cases hv
    exact ⟨v, hother hqp, rfl, .inl rfl⟩
  | @queueProc q allocated e hmtx hrun =>
    obtain ⟨w, hw, -⟩ := h.registry.inserting q .poll (by rw [hmtx]; rfl)
    obtain ⟨n, k, -, rfl⟩ := ptableQueueProc_cases hw hrun
    by_cases hqp : q = p
    · subst hqp
      obtain rfl := Option.some.inj (hv.symm.trans hw)
      exact ⟨_, Function.update_self .., rfl, .inl rfl⟩
    · exact ⟨v, hother hqp, rfl, .inl rfl⟩
  | @insertReady q revents w e wakes threads hmtx hw _ hrun hwake =>
    rcases insertReady_cases hw hrun with ⟨-, -, rfl⟩ | ⟨-, -, rfl⟩
    · exact ⟨v, by rw [addReady_items]; exact hv, rfl, .inl rfl⟩
    · exact ⟨v, hv, rfl, .inl rfl⟩
  | @unregister q revents w hmtx hw _ =>
    by_cases hqp : q = p
    · subst hqp
      obtain rfl := Option.some.inj (hv.symm.trans hw)
      exact ⟨_, Function.update_self .., rfl, .inl rfl⟩
    · exact ⟨v, hother hqp, rfl, .inl rfl⟩
  | @insertFree q e hmtx hrun =>
    have hqp : q ≠ p := by
      rintro rfl
      exact hdel rfl
    obtain ⟨w, hw, -⟩ := h.registry.inserting q .unregistered (by rw [hmtx]; rfl)
    obtain rfl := insertFree_eq hw hrun
    exact ⟨v, (Function.update_of_ne (Ne.symm hqp) ..).trans hv, rfl, .inl rfl⟩
  | @put t sent q revents w e hmtx hw hrun =>
    rcases sendPut_cases hw hrun with ⟨hone, rfl⟩ | ⟨-, -, rfl⟩ | ⟨-, -, rfl⟩
    · by_cases hqp : q = p
      · subst hqp
        obtain rfl := Option.some.inj (hv.symm.trans hw)
        exact ⟨_, Function.update_self .., rfl, .inr ⟨hone, ⟨_, rfl⟩, rfl⟩⟩
      · exact ⟨v, hother hqp, rfl, .inl rfl⟩
    · exact ⟨v, hv, rfl, .inl rfl⟩
    · exact ⟨v, hv, rfl, .inl rfl⟩
  | @requeue t sent res m j e threads hmtx ht hrun hwake =>
    obtain ⟨ps, -, hreq⟩ := h.requeued hmtx hrun
    exact ⟨v.clear, by rw [hreq.items, hv]; rfl, rfl, .inl rfl⟩
  | device | consume | insertPoll | wait | look | wakeUp | splice | take | stop | poll | fault =>
    exact ⟨v, hv, rfl, .inl rfl⟩

-- ---------------------------------------------------------------------------
-- Queues
-- ---------------------------------------------------------------------------

/-- An item is queued until it is polled. -/
theorem Step.queued (hstep : Step s ev u) (h : s.Inv) (hdel : ev ≠ .insertFree p) (hne : ev ≠ .poll p)
    (hq : s.Queued p) : u.Queued p := by
  have hactive : ∀ {t : System φ τ} {w : Epitem φ}, t.ep.items p = some w → w.next ≠ .unactive → t.Queued p :=
    fun hw hn => .inr (.inl ⟨_, hw, hn⟩)
  cases hstep with
  | @callback q key e wakes threads hmem hrun hwake =>
    obtain ⟨w, hw, -⟩ := h.registry.calls q (List.ne_nil_of_mem hmem)
    rcases pollCallback_cases hw hrun with ⟨rfl, -, -⟩ | ⟨-, hovf, -, -, rfl⟩ | ⟨-, -, -, rfl⟩
    · exact hq
    · rcases hq with hlinked | ⟨v, hv, hn⟩ | hpoll
      · exact .inl hlinked
      · by_cases hqp : p = q
        · subst hqp
          exact hactive (Function.update_self ..) hovf
        · exact hactive ((Function.update_of_ne hqp ..).trans hv) hn
      · exact .inr (.inr hpoll)
    · rcases hq with hlinked | ⟨v, hv, hn⟩ | hpoll
      · exact .inl (isLinked_addReady.mpr (.inl hlinked))
      · exact hactive (by rw [addReady_items, hv]) hn
      · exact .inr (.inr hpoll)
  | @insert q ffd event hfree hrbr hnew =>
    rcases hq with hlinked | ⟨v, hv, hn⟩ | ⟨t, sent, hmtx⟩
    · exact .inl hlinked
    · have hqp : p ≠ q := by
        rintro rfl
        rw [hnew] at hv
        cases hv
      exact hactive ((Function.update_of_ne hqp ..).trans hv) hn
    · rw [hfree] at hmtx
      cases hmtx
  | @queueProc q allocated e hmtx hrun =>
    obtain ⟨w, hw, -⟩ := h.registry.inserting q .poll (by rw [hmtx]; rfl)
    obtain ⟨n, k, -, rfl⟩ := ptableQueueProc_cases hw hrun
    rcases hq with hlinked | ⟨v, hv, hn⟩ | hpoll
    · exact .inl hlinked
    · by_cases hqp : p = q
      · subst hqp
        obtain rfl := Option.some.inj (hv.symm.trans hw)
        exact hactive (Function.update_self ..) hn
      · exact hactive ((Function.update_of_ne hqp ..).trans hv) hn
    · exact .inr (.inr hpoll)
  | @insertPoll q w hmtx _ =>
    rcases hq with hlinked | hnext | ⟨t, sent, hmtx'⟩
    · exact .inl hlinked
    · exact .inr (.inl hnext)
    · rw [hmtx] at hmtx'
      cases hmtx'
  | @insertReady q revents w e wakes threads hmtx hw _ hrun hwake =>
    rcases hq with hlinked | ⟨v, hv, hn⟩ | ⟨t, sent, hmtx'⟩
    · rcases insertReady_cases hw hrun with ⟨-, -, rfl⟩ | ⟨-, -, rfl⟩
      · exact .inl (isLinked_addReady.mpr (.inl hlinked))
      · exact .inl hlinked
    · rcases insertReady_cases hw hrun with ⟨-, -, rfl⟩ | ⟨-, -, rfl⟩
      · exact hactive (by rw [addReady_items]; exact hv) hn
      · exact hactive hv hn
    · rw [hmtx] at hmtx'
      cases hmtx'
  | @unregister q revents w hmtx hw _ =>
    rcases hq with hlinked | ⟨v, hv, hn⟩ | ⟨t, sent, hmtx'⟩
    · exact .inl hlinked
    · by_cases hqp : p = q
      · subst hqp
        obtain rfl := Option.some.inj (hv.symm.trans hw)
        exact hactive (Function.update_self ..) hn
      · exact hactive ((Function.update_of_ne hqp ..).trans hv) hn
    · rw [hmtx] at hmtx'
      cases hmtx'
  | @insertFree q e hmtx hrun =>
    obtain ⟨w, hw, -⟩ := h.registry.inserting q .unregistered (by rw [hmtx]; rfl)
    obtain rfl := insertFree_eq hw hrun
    have hqp : p ≠ q := by
      rintro rfl
      exact hdel rfl
    rcases hq with hlinked | ⟨v, hv, hn⟩ | ⟨t, sent, hmtx'⟩
    · exact .inl (hlinked.imp_left (List.mem_erase_of_ne hqp).mpr)
    · exact hactive ((Function.update_of_ne hqp ..).trans hv) hn
    · rw [hmtx] at hmtx'
      cases hmtx'
  | @splice t m j ht hfree =>
    have htx := h.lists.txlist (h.noScan fun t sent phase hmtx => by rw [hfree] at hmtx; cases hmtx).1
    rcases hq with hlinked | hnext | ⟨t', sent, hmtx⟩
    · rw [Eventpoll.IsLinked, htx] at hlinked
      exact .inl (.inr (hlinked.resolve_right List.not_mem_nil))
    · exact .inr (.inl hnext)
    · rw [hfree] at hmtx
      cases hmtx
  | @take t sent m j q rest hmtx ht htx _ =>
    rcases hq with (hrd | htaken) | hnext | ⟨t', sent', hmtx'⟩
    · exact .inl (.inl hrd)
    · rw [htx] at htaken
      rcases List.mem_cons.mp htaken with rfl | hrest
      · exact .inr (.inr ⟨t, sent, rfl⟩)
      · exact .inl (.inr hrest)
    · exact .inr (.inl hnext)
    · rw [hmtx] at hmtx'
      cases hmtx'
  | @stop t sent m j hmtx _ _ =>
    rcases hq with hlinked | hnext | ⟨t', sent', hmtx'⟩
    · exact .inl hlinked
    · exact .inr (.inl hnext)
    · rw [hmtx] at hmtx'
      cases hmtx'
  | @poll t sent q v hmtx _ =>
    rcases hq with hlinked | hnext | ⟨t', sent', hmtx'⟩
    · exact .inl hlinked
    · exact .inr (.inl hnext)
    · rw [hmtx] at hmtx'
      cases hmtx'
      exact absurd rfl hne
  | @put t sent q revents w e hmtx hw hrun =>
    rcases hq with hlinked | ⟨v, hv, hn⟩ | ⟨t', sent', hmtx'⟩
    · rcases sendPut_cases hw hrun with ⟨-, rfl⟩ | ⟨-, -, rfl⟩ | ⟨-, -, rfl⟩
      · exact .inl hlinked
      · exact .inl (hlinked.imp_left (List.mem_append_left _))
      · exact .inl hlinked
    · rcases sendPut_cases hw hrun with ⟨-, rfl⟩ | ⟨-, -, rfl⟩ | ⟨-, -, rfl⟩
      · by_cases hqp : p = q
        · subst hqp
          obtain rfl := Option.some.inj (hv.symm.trans hw)
          exact hactive (Function.update_self ..) hn
        · exact hactive ((Function.update_of_ne hqp ..).trans hv) hn
      · exact hactive hv hn
      · exact hactive hv hn
    · rw [hmtx] at hmtx'
      cases hmtx'
  | @fault t sent q revents hmtx =>
    rcases hq with hlinked | hnext | ⟨t', sent', hmtx'⟩
    · exact .inl (hlinked.imp_right (List.mem_cons_of_mem _))
    · exact .inr (.inl hnext)
    · rw [hmtx] at hmtx'
      cases hmtx'
  | @requeue t sent res m j e threads hmtx ht hrun hwake =>
    obtain ⟨ps, -, hreq⟩ := h.requeued hmtx hrun
    have hlinked : s.ep.IsLinked p → p ∈ e.rdllist := by
      rw [hreq.rdllist, List.mem_append, List.mem_append]
      exact fun hl => hl.elim (fun hrd => .inr (.inl hrd)) .inl
    rcases hq with hl | ⟨v, hv, hn⟩ | ⟨t', sent', hmtx'⟩
    · exact .inl (.inl (hlinked hl))
    · by_cases hl : s.ep.IsLinked p
      · exact .inl (.inl (hlinked hl))
      · refine .inl (.inl ?_)
        rw [hreq.rdllist]
        refine List.mem_append_right _ (List.mem_append_right _ (List.mem_filter.mpr ⟨?_, decide_eq_true hl⟩))
        exact (hreq.active p v hv).mp hn
    · rw [hmtx] at hmtx'
      cases hmtx'
  | device | consume | wait | look | wakeUp => exact hq

/-- A callback under way stays under way, or it queues its item. -/
theorem Step.called (hstep : Step s ev u) (hv : s.ep.items p = some v)
    (hins : s.mtx = .insert p .unregistered ∨ u.mtx ≠ .insert p .unregistered) (hw : u.ep.items p = some w)
    (hevent : w.event = v.event) (hc : s.Called p) : u.Queued p ∨ u.Called p := by
  obtain ⟨v₀, key, hv₀, hkey, hwants⟩ := hc
  obtain rfl := Option.some.inj (hv.symm.trans hv₀)
  have hwants' : w.Wants key := by
    unfold Epitem.Wants
    rw [hevent]
    exact hwants
  have hkeep : key ∈ u.calls p → u.Queued p ∨ u.Called p := fun hmem => .inr ⟨w, key, hw, hmem, hwants'⟩
  cases hstep with
  | @device f bits key' _ _ =>
    apply hkeep
    simp only [wakeFile]
    split
    · exact List.mem_append_left _ hkey
    · exact hkey
  | @callback q key' e wakes threads hmem hrun hwake =>
    by_cases hq : p = q
    · subst hq
      by_cases hkk : key = key'
      · subst hkk
        rcases pollCallback_cases hv hrun with ⟨rfl, -, hact⟩ | ⟨-, hovf, -, -, rfl⟩ | ⟨-, -, -, rfl⟩
        · exact .inl (.inr (.inl ⟨v, hv, (hact hwants).2⟩))
        · exact .inl (.inr (.inl ⟨_, Function.update_self .., hovf⟩))
        · exact .inl (.inl (isLinked_addReady.mpr (.inr rfl)))
      · apply hkeep
        simp only [Function.update_self]
        exact (List.mem_erase_of_ne hkk).mpr hkey
    · apply hkeep
      simp only [Function.update_of_ne hq]
      exact hkey
  | @unregister q revents w' hmtx hw' _ =>
    have hqp : p ≠ q := by
      rintro rfl
      rcases hins with hins | hins
      · rw [hmtx] at hins
        cases hins
      · exact hins rfl
    apply hkeep
    simp only [Function.update_of_ne hqp]
    exact hkey
  | _ => exact hkeep hkey

-- ---------------------------------------------------------------------------
-- Sleep
-- ---------------------------------------------------------------------------

/-- A thread sleeps, and none is awake that would collect ready items. -/
def Deserted (threads : τ → Thread) : Prop :=
  (∃ t m j, threads t = .asleep m j) ∧ ∀ t m j, threads t ≠ .woken m j ∧ threads t ≠ .send m j

/-- Items are ready, nobody scans them, and the threads sleep. -/
def Lost (s : System φ τ) : Prop :=
  s.ep.rdllist ≠ [] ∧ (∀ t sent phase, s.mtx ≠ .scan t sent phase) ∧ Deserted s.threads

omit [DecidableEq φ] in
theorem WakeUp.not_deserted {threads threads' : τ → Thread} (h : WakeUp threads threads') : ¬ Deserted threads' := by
  rintro ⟨⟨t, m, j, hasleep⟩, hawake⟩
  cases h with
  | none hno => exact hno t m j hasleep
  | @one t' m' j' j'' _ _ => exact (hawake t' m' j'').1 (Function.update_self ..)

omit [DecidableEq φ] in
/-- A thread that was not awake in the queue does not desert it. -/
theorem Deserted.of_update {threads : τ → Thread} {t : τ} {x : Thread} (h : Deserted (Function.update threads t x))
    (hx : ∀ m j, x ≠ .asleep m j) (ht : ∀ m j, threads t ≠ .woken m j ∧ threads t ≠ .send m j) :
    Deserted threads := by
  obtain ⟨⟨t', m, j, hasleep⟩, hawake⟩ := h
  have hne : t' ≠ t := by
    rintro rfl
    rw [Function.update_self] at hasleep
    exact hx m j hasleep
  rw [Function.update_of_ne hne] at hasleep
  refine ⟨⟨t', m, j, hasleep⟩, fun t'' m' j' => ?_⟩
  by_cases heq : t'' = t
  · rw [heq]
    exact ht m' j'
  · have hother := hawake t'' m' j'
    rwa [Function.update_of_ne heq] at hother

theorem Step.not_lost (hstep : Step s ev u) (h : s.Inv) (hs : ¬ s.Lost) : ¬ u.Lost := by
  rintro ⟨hready, hscan, hdes⟩
  cases hstep with
  | device _ _ | consume => exact hs ⟨hready, hscan, hdes⟩
  | @callback q key e wakes threads hmem hrun hwake =>
    obtain ⟨w, hw, -⟩ := h.registry.calls q (List.ne_nil_of_mem hmem)
    rcases pollCallback_cases hw hrun with ⟨rfl, rfl, -⟩ | ⟨-, -, -, rfl, rfl⟩ | ⟨-, -, rfl, rfl⟩
    · obtain rfl : threads = s.threads := hwake
      exact hs ⟨hready, hscan, hdes⟩
    · obtain rfl : threads = s.threads := hwake
      exact hs ⟨hready, hscan, hdes⟩
    · exact WakeUp.not_deserted hwake hdes
  | insert hfree _ _ => exact hs ⟨hready, by simp [hfree], hdes⟩
  | @queueProc q allocated e hmtx hrun =>
    obtain ⟨w, hw, -⟩ := h.registry.inserting q .poll (by rw [hmtx]; rfl)
    obtain ⟨n, k, -, rfl⟩ := ptableQueueProc_cases hw hrun
    exact hs ⟨hready, hscan, hdes⟩
  | insertPoll hmtx _ => exact hs ⟨hready, by simp [hmtx], hdes⟩
  | @insertReady q revents w e wakes threads hmtx hw _ hrun hwake =>
    rcases insertReady_cases hw hrun with ⟨-, rfl, rfl⟩ | ⟨-, rfl, rfl⟩
    · exact WakeUp.not_deserted hwake hdes
    · obtain rfl : threads = s.threads := hwake
      exact hs ⟨hready, by simp [hmtx], hdes⟩
  | unregister hmtx hv _ => exact hs ⟨hready, by simp [hmtx], hdes⟩
  | @insertFree q e hmtx hrun =>
    obtain ⟨w, hw, -⟩ := h.registry.inserting q .unregistered (by rw [hmtx]; rfl)
    obtain rfl := insertFree_eq hw hrun
    refine hs ⟨fun hnil => hready ?_, by simp [hmtx], hdes⟩
    simp [hnil]
  | wait ht _ => exact hs ⟨hready, hscan, hdes.of_update (by simp) (by simp [ht])⟩
  | @look t m j signal _ =>
    refine (hdes.2 t m j).2 ?_
    simp only [Function.update_self]
    rw [epPoll, if_pos (.inl hready), if_pos (.inl hready)]
  | @wakeUp t m j j' _ _ => exact (hdes.2 t m j').1 (Function.update_self ..)
  | splice _ _ | take _ _ _ _ | stop _ _ _ | poll _ _ | put _ _ _ | fault _ => exact hscan _ _ _ rfl
  | @requeue t sent res m j e threads hmtx ht hrun hwake =>
    have hwake' : WakeUp s.threads threads := by
      have hne : (!e.rdllist.isEmpty) = true := by simpa using hready
      rwa [hne] at hwake
    have hscanning : threads t = .scanning m j := (WakeUpIf.scanning hwake).mpr ht
    refine hwake'.not_deserted (hdes.of_update (fun m' j' => ?_) (by simp [hscanning]))
    unfold epPollSent
    split <;> simp

omit [DecidableEq φ] [DecidableEq τ] in
theorem start_not_lost : ¬ (start : System φ τ).Lost :=
  fun h => h.1 rfl

/-- No run leads to a state where items are ready and the threads sleep through it. -/
theorem run_not_lost {es : List (Event φ τ)} (hrun : Run Step start es s) : ¬ s.Lost := by
  refine (Run.invariant (I := fun s => s.Inv ∧ ¬ s.Lost) (fun s e t hs hstep => ?_) hrun ⟨start_inv, start_not_lost⟩).2
  exact ⟨hstep.inv hs.1, hstep.not_lost hs.1 hs.2⟩

/-- A thread sleeps in `epoll_wait`, and nothing is under way that could wake it up: no
    callback, no thread with the mutex, and no thread that collects items. -/
structure Slept (s : System φ τ) : Prop where
  deserted : Deserted s.threads
  mtx : s.mtx = .free
  calls : ∀ p, s.calls p = []

omit [DecidableEq φ] [DecidableEq τ] in
/-- Then no item is queued, and none will be. -/
theorem Slept.unqueued (h : s.Slept) (hinv : s.Inv) (hlost : ¬ s.Lost) (p : Ptr) : ¬ s.Queued p ∧ ¬ s.Called p := by
  have hno : ∀ t sent phase, s.mtx ≠ .scan t sent phase := by simp [h.mtx]
  have hovf := (hinv.noScan hno).1
  have hrd : s.ep.rdllist = [] := by
    by_contra hne
    exact hlost ⟨hne, hno, h.deserted⟩
  constructor
  · rintro ((hmem | hmem) | ⟨v, hv, hn⟩ | ⟨t, sent, hmtx⟩)
    · rw [hrd] at hmem
      cases hmem
    · rw [hinv.lists.txlist hovf] at hmem
      cases hmem
    · exact hn (hinv.lists.next hovf hv)
    · exact hno _ _ _ hmtx
  · rintro ⟨v, key, -, hkey, -⟩
    rw [h.calls] at hkey
    cases hkey

-- ---------------------------------------------------------------------------
-- Edges
-- ---------------------------------------------------------------------------

omit [DecidableEq φ] [DecidableEq τ] in
theorem Inv.not_inserting (h : s.Inv) (hv : s.ep.items p = some v) (hreg : s.ep.rbr v.ffd = some p)
    (phase : Insert) : s.mtx ≠ .insert p phase := by
  intro hmtx
  obtain ⟨w, hw, hnone, -⟩ := h.registry.inserting p phase (by rw [hmtx]; rfl)
  obtain rfl := Option.some.inj (hv.symm.trans hw)
  rw [hreg] at hnone
  cases hnone

/-- What is in memory and not being inserted is not inserted again. -/
theorem Step.not_inserting (hstep : Step s ev u) (hv : s.ep.items p = some v)
    (hins : ∀ phase, s.mtx ≠ .insert p phase) (phase : Insert) : u.mtx ≠ .insert p phase := by
  intro hmtx
  cases hstep with
  | insert _ _ hnew =>
    cases hmtx
    rw [hnew] at hv
    cases hv
  | insertPoll hmtx' _ | unregister hmtx' _ _ =>
    cases hmtx
    exact hins _ hmtx'
  | device _ _ | consume | callback _ _ _ | queueProc _ _ | wait _ _ | look _ | wakeUp _ _ => exact hins _ hmtx
  | insertReady _ _ _ _ _ | insertFree _ _ | requeue _ _ _ _ => cases hmtx
  | splice _ _ | take _ _ _ _ | stop _ _ _ | poll _ _ | put _ _ _ | fault _ => cases hmtx

/-- The item is not polled yet since an event that it wants. -/
structure Awaited (s : System φ τ) (p : Ptr) (events : Events) : Prop where
  inv : s.Inv
  item : ∃ v, s.ep.items p = some v ∧ v.event.events = events
  inserted : ∀ phase, s.mtx ≠ .insert p phase
  pending : s.Queued p ∨ s.Called p

theorem Step.awaited {events : Events} (hstep : Step s ev u) (hne : ev ≠ .poll p)
    (hput : events &&& epollOneshot = 0 ∨ ∀ r, ev ≠ .put p r) (h : s.Awaited p events) : u.Awaited p events := by
  obtain ⟨v, hv, hevents⟩ := h.item
  have hdel : ev ≠ .insertFree p := by
    rintro rfl
    cases hstep with
    | insertFree hmtx _ => exact h.inserted _ hmtx
  obtain ⟨w, hw, -, hevent⟩ := hstep.item h.inv hv hdel
  replace hevent : w.event = v.event := by
    refine hevent.resolve_right ?_
    rintro ⟨hone, ⟨r, hr⟩, -⟩
    rw [hevents] at hone
    rcases hput with hzero | hno
    · exact hone hzero
    · exact hno r hr
  have hinserted := hstep.not_inserting hv h.inserted
  refine ⟨hstep.inv h.inv, ⟨w, hw, by rw [hevent, hevents]⟩, hinserted, ?_⟩
  rcases h.pending with hq | hc
  · exact .inl (hstep.queued h.inv hdel hne hq)
  · exact hstep.called hv (.inr (hinserted _)) hw hevent hc

omit [DecidableEq φ] [DecidableEq τ] in
/-- A key with all the bits that came is one that the item wants. -/
theorem wants_of_bits {bits key : Events} (hpriv : bits &&& privateBits = 0) (hkey : key = 0 ∨ key &&& bits = bits)
    (hbits : bits &&& v.event.events ≠ 0) : v.Wants key := by
  constructor
  · intro hoff
    exact hbits (FlagWord.and_eq_zero_of_le hpriv hoff)
  · refine hkey.imp_right fun hk hzero => hbits ?_
    rw [← hk, BitVec.and_comm key, BitVec.and_assoc, hzero]
    simp

/-- An event that a registered item wants is polled for before the threads sleep. If the item is
    a one-shot one, it may also have been disabled by a report that was under way. -/
theorem edge_polled {pre post : List (Event φ τ)} {s₁ : System φ τ} {f : φ} {bits key : Events}
    (hpre : Run Step start pre s) (hdevice : Step s (.device f bits key) s₁) (hpost : Run Step s₁ post u)
    (hv : s.ep.items p = some v) (hreg : s.ep.rbr v.ffd = some p) (hhook : Hooked s.ep f p)
    (hbits : bits &&& v.event.events ≠ 0) (hslept : u.Slept) :
    .poll p ∈ post ∨ v.event.events &&& epollOneshot ≠ 0 ∧ ∃ r, .put p r ∈ post := by
  by_contra hno
  rw [not_or, not_and] at hno
  have hinv := run_inv hpre
  have hawaited : s₁.Awaited p v.event.events := by
    refine ⟨hdevice.inv hinv, ?_, ?_, .inr ?_⟩
    · cases hdevice
      exact ⟨v, hv, rfl⟩
    · exact hdevice.not_inserting hv (hinv.not_inserting hv hreg)
    · cases hdevice with
      | device hpriv hkey =>
        refine ⟨v, key, hv, ?_, wants_of_bits hpriv hkey hbits⟩
        simp [wakeFile, if_pos hhook]
  have hlabels : ∀ ev ∈ post, ev ≠ .poll p ∧ (v.event.events &&& epollOneshot = 0 ∨ ∀ r, ev ≠ .put p r) := by
    intro ev hev
    refine ⟨?_, ?_⟩
    · rintro rfl
      exact hno.1 hev
    · by_cases hone : v.event.events &&& epollOneshot = 0
      · exact .inl hone
      · refine .inr fun r => ?_
        rintro rfl
        exact hno.2 hone ⟨r, hev⟩
  have hend : u.Awaited p v.event.events :=
    Run.invariant (I := fun s => s.Awaited p v.event.events)
      (fun _ _ _ hs hstep => hstep.1.awaited hstep.2.1 hstep.2.2 hs) (hpost.and_labels hlabels) hawaited
  have hrun : Run Step start (pre ++ .device f bits key :: post) u :=
    Run.append_iff.mpr ⟨s, hpre, .cons hdevice hpost⟩
  obtain ⟨hq, hc⟩ := hslept.unqueued hend.inv (run_not_lost hrun) p
  exact hend.pending.elim hq hc

/-- An item that is watched for input. -/
def watched (events : Events) : List (Event Unit Unit) :=
  [.insert 1 ⟨(), 5⟩ ⟨events, 7⟩, .queueProc true, .insertPoll, .insertReady 1]

/-- A thread is called, reports the item, and waits for the next event. -/
def served : List (Event Unit Unit) :=
  [.callback 1 1, .wait () 4 none, .look () false, .splice (), .next, .poll 1, .put 1 1, .next, .requeue,
    .wait () 4 none, .look () false]

theorem edge_polled_served : .poll 1 ∈ served ∨ (ctlEvent ⟨1 ||| epollEt, 7⟩).events &&& epollOneshot ≠ 0 ∧
    ∃ r, .put 1 r ∈ served := by
  apply edge_polled (v := ⟨.unactive, ⟨(), 5⟩, 1, 1, ctlEvent ⟨1 ||| epollEt, 7⟩⟩)
  · show Run Step start (watched (1 ||| epollEt)) _
    apply Run.cons (.insert rfl rfl rfl)
    apply Run.cons (.queueProc rfl rfl)
    apply Run.cons (.insertPoll rfl rfl)
    apply Run.cons (.insertReady rfl rfl (by decide) rfl rfl)
    exact Run.nil _
  · exact @Step.device Unit Unit _ _ _ () 1 1 (by decide) (.inr (by decide))
  · apply Run.cons (.callback (by decide) rfl (.none (by rintro _ _ _ ⟨⟩)))
    apply Run.cons (.wait rfl (by decide))
    apply Run.cons (.look (.inl rfl))
    apply Run.cons (.splice rfl rfl)
    apply Run.cons (.take rfl rfl rfl (by decide))
    apply Run.cons (.poll rfl rfl)
    apply Run.cons (.put rfl rfl rfl)
    apply Run.cons (.stop rfl rfl (.inl rfl))
    apply Run.cons (.requeue rfl rfl (Yields.of_add 3 fun _ => rfl) rfl)
    apply Run.cons (.wait rfl (by decide))
    apply Run.cons (.look (.inl rfl))
    exact Run.nil _
  · rfl
  · rfl
  · decide
  · decide
  · refine ⟨⟨⟨(), 4, none, rfl⟩, fun t m j => ⟨by rintro ⟨⟩, by rintro ⟨⟩⟩⟩, rfl, fun p => ?_⟩
    by_cases hp : p = 1
    · subst hp
      rfl
    · simp [wakeFile, hp, start, Hooked, Eventpoll.insertItem, Eventpoll.alloc]

-- ---------------------------------------------------------------------------
-- Levels
-- ---------------------------------------------------------------------------

/-- An item that was not there before is being inserted, and wait queue entries are made only then. -/
theorem Step.hooked (hstep : Step s ev u) (h : s.Inv) (hw : u.ep.items p = some w) :
    u.mtx = .insert p .poll ∨ ∃ v, s.ep.items p = some v ∧ (0 < w.pwqlist → 0 < v.pwqlist) := by
  have hsame : s.ep.items p = some w → ∃ v, s.ep.items p = some v ∧ (0 < w.pwqlist → 0 < v.pwqlist) :=
    fun hv => ⟨w, hv, id⟩
  have hset : ∀ {q : Ptr} {v v' : Epitem φ}, s.ep.items q = some v →
      Function.update s.ep.items q (some v') p = some w → (0 < v'.pwqlist → 0 < v.pwqlist) →
      ∃ v, s.ep.items p = some v ∧ (0 < w.pwqlist → 0 < v.pwqlist) := by
    intro q v v' hv hw hpos
    by_cases hqp : p = q
    · subst hqp
      rw [Function.update_self] at hw
      obtain rfl := Option.some.inj hw
      exact ⟨v, hv, hpos⟩
    · rw [Function.update_of_ne hqp] at hw
      exact hsame hw
  cases hstep with
  | @callback q key e wakes threads hmem hrun hwake =>
    obtain ⟨v, hv, -⟩ := h.registry.calls q (List.ne_nil_of_mem hmem)
    rcases pollCallback_cases hv hrun with ⟨rfl, -, -⟩ | ⟨-, -, -, -, rfl⟩ | ⟨-, -, -, rfl⟩
    · exact .inr (hsame hw)
    · exact .inr (hset hv hw id)
    · exact .inr (hsame (by rwa [addReady_items] at hw))
  | @insert q ffd event _ _ _ =>
    by_cases hqp : p = q
    · exact .inl (hqp ▸ rfl)
    · exact .inr (hsame ((Function.update_of_ne hqp ..).symm.trans hw))
  | @queueProc q allocated e hmtx hrun =>
    obtain ⟨v, hv, -⟩ := h.registry.inserting q .poll (by rw [hmtx]; rfl)
    obtain ⟨n, k, -, rfl⟩ := ptableQueueProc_cases hv hrun
    by_cases hqp : p = q
    · exact .inl (hqp ▸ hmtx)
    · exact .inr (hsame ((Function.update_of_ne hqp ..).symm.trans hw))
  | @insertReady q revents v e wakes threads hmtx hv _ hrun hwake =>
    rcases insertReady_cases hv hrun with ⟨-, -, rfl⟩ | ⟨-, -, rfl⟩
    · rw [addReady_items] at hw
      exact .inr (hsame hw)
    · exact .inr (hsame hw)
  | @unregister q revents v hmtx hv _ =>
    exact .inr (hset hv hw fun hpos => absurd hpos (Nat.lt_irrefl 0))
  | @insertFree q e hmtx hrun =>
    obtain ⟨v, hv, -⟩ := h.registry.inserting q .unregistered (by rw [hmtx]; rfl)
    obtain rfl := insertFree_eq hv hrun
    have hqp : p ≠ q := by
      rintro rfl
      simp at hw
    exact .inr (hsame ((Function.update_of_ne hqp ..).symm.trans hw))
  | @put t sent q revents v e hmtx hv hrun =>
    rcases sendPut_cases hv hrun with ⟨-, rfl⟩ | ⟨-, -, rfl⟩ | ⟨-, -, rfl⟩
    · exact .inr (hset hv hw id)
    · exact .inr (hsame hw)
    · exact .inr (hsame hw)
  | @requeue t sent res m j e threads hmtx ht hrun hwake =>
    obtain ⟨ps, -, hreq⟩ := h.requeued hmtx hrun
    rw [hreq.items, Option.map_eq_some_iff] at hw
    obtain ⟨v, hv, rfl⟩ := hw
    exact .inr ⟨v, hv, id⟩
  | device | consume | insertPoll | wait | look | wakeUp | splice | take | stop | poll | fault =>
    exact .inr (hsame hw)

/-- The thread that inserts an item looks at the file between the wait queue and the ready list. -/
theorem Step.insert_phase {phase : Insert} (hstep : Step s ev u) (hmtx : s.mtx = .insert p phase) :
    u.mtx = .insert p phase ∨ u.mtx = .insert p .unregistered ∨ ev = .insertFree p ∨
      (∃ v, s.ep.items p = some v ∧ u.mtx = .insert p (.polled (s.files v.ffd.file))) ∨
      ∃ v r, s.ep.items p = some v ∧ phase = .polled r ∧ (r &&& v.event.events ≠ 0 → u.Queued p) := by
  cases hstep with
  | device _ _ | consume | callback _ _ _ | queueProc _ _ | wait _ _ | look _ | wakeUp _ _ => exact .inl hmtx
  | insert hmtx' _ _ | splice _ hmtx' =>
    rw [hmtx] at hmtx'
    cases hmtx'
  | take hmtx' _ _ _ | stop hmtx' _ _ | poll hmtx' _ | put hmtx' _ _ | fault hmtx' | requeue hmtx' _ _ _ =>
    rw [hmtx] at hmtx'
    cases hmtx'
  | @insertPoll q v hmtx' hv =>
    rw [hmtx] at hmtx'
    cases hmtx'
    exact .inr (.inr (.inr (.inl ⟨v, hv, rfl⟩)))
  | @insertReady q revents v e wakes threads hmtx' hv _ hrun hwake =>
    rw [hmtx] at hmtx'
    cases hmtx'
    refine .inr (.inr (.inr (.inr ⟨v, revents, hv, rfl, fun hne => .inl ?_⟩)))
    rcases insertReady_cases hv hrun with ⟨-, -, rfl⟩ | ⟨hlinked, -, rfl⟩
    · exact isLinked_addReady.mpr (.inr rfl)
    · exact hlinked hne
  | unregister hmtx' _ _ =>
    rw [hmtx] at hmtx'
    cases hmtx'
    exact .inr (.inl rfl)
  | insertFree hmtx' _ =>
    rw [hmtx] at hmtx'
    cases hmtx'
    exact .inr (.inr (.inl rfl))

/-- Behind a report a level-triggered item is queued again. -/
theorem Step.put_phase {t : τ} {sent : List EpollEvent} {r : Events} (hstep : Step s ev u)
    (hmtx : s.mtx = .scan t sent (.put p r)) (hv : s.ep.items p = some v) (het : v.event.events &&& epollEt = 0) :
    u.mtx = .scan t sent (.put p r) ∨ u.Queued p ∨
      ∃ w, u.ep.items p = some w ∧ w.event.events = v.event.events &&& privateBits := by
  cases hstep with
  | device _ _ | consume | callback _ _ _ | wait _ _ | look _ | wakeUp _ _ => exact .inl hmtx
  | insert hmtx' _ _ | queueProc hmtx' _ | insertPoll hmtx' _ | insertReady hmtx' _ _ _ _ | unregister hmtx' _ _ =>
    rw [hmtx] at hmtx'
    cases hmtx'
  | insertFree hmtx' _ | splice _ hmtx' | take hmtx' _ _ _ | stop hmtx' _ _ | poll hmtx' _ | requeue hmtx' _ _ _ =>
    rw [hmtx] at hmtx'
    cases hmtx'
  | @put t' sent' q revents w e hmtx' hw hrun =>
    rw [hmtx] at hmtx'
    cases hmtx'
    obtain rfl := Option.some.inj (hv.symm.trans hw)
    rcases sendPut_cases hv hrun with ⟨-, rfl⟩ | ⟨-, -, rfl⟩ | ⟨-, hne, -⟩
    · exact .inr (.inr ⟨_, Function.update_self .., rfl⟩)
    · exact .inr (.inl (.inl (.inl (List.mem_append_right _ List.mem_cons_self))))
    · exact absurd het hne
  | @fault t' sent' q revents hmtx' =>
    rw [hmtx] at hmtx'
    cases hmtx'
    exact .inr (.inl (.inl (.inr List.mem_cons_self)))

/-- Someone will look whether the item is ready, or has seen that it is. -/
def Attended (s : System φ τ) (p : Ptr) (v : Epitem φ) : Prop :=
  s.Queued p ∨ s.Called p ∨ s.mtx = .insert p .poll ∨ s.mtx = .insert p .unregistered ∨
    (∃ r, s.mtx = .insert p (.polled r) ∧ r &&& v.event.events ≠ 0) ∨ ∃ t sent r, s.mtx = .scan t sent (.put p r)

/-- Files are ready for no private bit, and every level-triggered item that is ready is attended. -/
structure Level (s : System φ τ) : Prop where
  files : ∀ f, s.files f &&& privateBits = 0
  attended : ∀ p v, s.ep.items p = some v → 0 < v.pwqlist → v.event.events &&& epollEt = 0 →
    s.files v.ffd.file &&& v.event.events ≠ 0 → s.Attended p v

/-- What a step adds to a file calls the items of the file. -/
theorem Step.files (hstep : Step s ev u) (hfiles : ∀ f, s.files f &&& privateBits = 0) :
    (∀ f, u.files f &&& privateBits = 0) ∧
      ∀ p v, s.ep.items p = some v → 0 < v.pwqlist → s.files v.ffd.file &&& v.event.events = 0 →
        u.files v.ffd.file &&& v.event.events ≠ 0 → u.Called p := by
  cases hstep with
  | @device f bits key hpriv hkey =>
    refine ⟨fun g => ?_, fun p v hv hpos hzero hready => ?_⟩
    · show Function.update s.files f _ g &&& _ = 0
      by_cases hg : g = f
      · subst hg
        rw [Function.update_self]
        exact FlagWord.or_and_eq_zero.mpr ⟨hfiles g, hpriv⟩
      · rw [Function.update_of_ne hg, hfiles]
    · have hf : v.ffd.file = f := by
        by_contra hne
        simp only [Function.update_of_ne hne] at hready
        exact hready hzero
      simp only [hf, Function.update_self] at hready
      rw [hf] at hzero
      have hbits : bits &&& v.event.events ≠ 0 := fun hb => hready (FlagWord.or_and_eq_zero.mpr ⟨hzero, hb⟩)
      have hhook : Hooked s.ep f p := ⟨v, hv, hf, hpos⟩
      refine ⟨v, key, hv, ?_, wants_of_bits hpriv hkey hbits⟩
      simp [wakeFile, if_pos hhook]
  | @consume f bits =>
    have hsame : ∀ g m, s.files g &&& m = 0 → Function.update s.files f (s.files f &&& ~~~bits) g &&& m = 0 := by
      intro g m hzero
      by_cases hg : g = f
      · subst hg
        rw [Function.update_self]
        exact FlagWord.and_not_and_eq_zero hzero
      · rwa [Function.update_of_ne hg]
    exact ⟨fun g => hsame g _ (hfiles g), fun p v _ _ hzero hready => absurd (hsame _ _ hzero) hready⟩
  | _ => exact ⟨hfiles, fun p v _ _ hzero hready => absurd hzero hready⟩

/-- A disabled item is not ready for anything. -/
theorem not_ready_of_disabled {x m : Events} (hx : x &&& privateBits = 0) : x &&& (m &&& privateBits) = 0 :=
  FlagWord.and_eq_zero_of_le hx (by simp [BitVec.and_assoc])

/-- An item that is ready stays attended. -/
theorem Step.attended (hstep : Step s ev u) (h : s.Inv) (hv : s.ep.items p = some v)
    (hdel : ev ≠ .insertFree p) (hw : u.ep.items p = some w) (hevent : w.event = v.event)
    (het : v.event.events &&& epollEt = 0) (hready : s.files v.ffd.file &&& v.event.events ≠ 0)
    (hstill : u.files v.ffd.file &&& privateBits = 0 ∧ u.files v.ffd.file &&& w.event.events ≠ 0)
    (hs : s.Attended p v) : u.Attended p w := by
  rcases hs with hq | hc | hmtx | hmtx | ⟨r, hmtx, hr⟩ | ⟨t, sent, r, hmtx⟩
  · by_cases hpoll : ev = .poll p
    · subst hpoll
      cases hstep with
      | @poll t sent _ v' _ hv' =>
        obtain rfl := Option.some.inj (hv.symm.trans hv')
        refine .inr (.inr (.inr (.inr (.inr ⟨t, sent, s.files v.ffd.file &&& v.event.events, ?_⟩))))
        simp only [polled, if_pos hready]
    · exact .inl (hstep.queued h hdel hpoll hq)
  · by_cases hun : u.mtx = .insert p .unregistered
    · exact .inr (.inr (.inr (.inl hun)))
    · exact (hstep.called hv (.inr hun) hw hevent hc).imp_right .inl
  · rcases hstep.insert_phase hmtx with hu | hu | hfree | ⟨v', hv', hu⟩ | ⟨v', r, -, hphase, -⟩
    · exact .inr (.inr (.inl hu))
    · exact .inr (.inr (.inr (.inl hu)))
    · exact absurd hfree hdel
    · obtain rfl := Option.some.inj (hv.symm.trans hv')
      exact .inr (.inr (.inr (.inr (.inl ⟨_, hu, by rwa [hevent]⟩))))
    · cases hphase
  · rcases hstep.insert_phase hmtx with hu | hu | hfree | ⟨v', hv', hu⟩ | ⟨v', r, -, hphase, -⟩
    · exact .inr (.inr (.inr (.inl hu)))
    · exact .inr (.inr (.inr (.inl hu)))
    · exact absurd hfree hdel
    · obtain rfl := Option.some.inj (hv.symm.trans hv')
      exact .inr (.inr (.inr (.inr (.inl ⟨_, hu, by rwa [hevent]⟩))))
    · cases hphase
  · rcases hstep.insert_phase hmtx with hu | hu | hfree | ⟨v', hv', hu⟩ | ⟨v', r', hv', hphase, hq⟩
    · exact .inr (.inr (.inr (.inr (.inl ⟨r, hu, by rwa [hevent]⟩))))
    · exact .inr (.inr (.inr (.inl hu)))
    · exact absurd hfree hdel
    · obtain rfl := Option.some.inj (hv.symm.trans hv')
      exact .inr (.inr (.inr (.inr (.inl ⟨_, hu, by rwa [hevent]⟩))))
    · obtain rfl := Option.some.inj (hv.symm.trans hv')
      cases hphase
      exact .inl (hq hr)
  · rcases hstep.put_phase hmtx hv het with hu | hq | ⟨w', hw', hevents⟩
    · exact .inr (.inr (.inr (.inr (.inr ⟨t, sent, r, hu⟩))))
    · exact .inl hq
    · obtain rfl := Option.some.inj (hw.symm.trans hw')
      refine absurd ?_ hstill.2
      rw [hevents]
      exact not_ready_of_disabled hstill.1

theorem Step.level (hstep : Step s ev u) (h : s.Inv) (hs : s.Level) : u.Level := by
  obtain ⟨hfiles, hcalled⟩ := hstep.files hs.files
  refine ⟨hfiles, fun p w hw hhook het hready => ?_⟩
  rcases hstep.hooked h hw with hmtx | ⟨v, hv, hpos⟩
  · exact .inr (.inr (.inl hmtx))
  have hdel : ev ≠ .insertFree p := by
    rintro rfl
    cases hstep with
    | insertFree hmtx hrun =>
      obtain rfl := insertFree_eq hv hrun
      simp at hw
  obtain ⟨w', hw', hffd, hevent⟩ := hstep.item h hv hdel
  obtain rfl := Option.some.inj (hw.symm.trans hw')
  rw [hffd] at hready
  replace hevent : w.event = v.event := by
    refine hevent.resolve_right ?_
    rintro ⟨-, -, hdisable⟩
    refine hready ?_
    rw [hdisable]
    exact not_ready_of_disabled (hfiles _)
  rw [hevent] at het
  by_cases hbefore : s.files v.ffd.file &&& v.event.events = 0
  · exact .inr (.inl (hcalled p v hv (hpos hhook) hbefore (by rwa [hevent] at hready)))
  · exact hstep.attended h hv hdel hw hevent het hbefore ⟨hfiles _, hready⟩ (hs.attended p v hv (hpos hhook) het hbefore)

omit [DecidableEq φ] [DecidableEq τ] in
theorem start_level : (start : System φ τ).Level :=
  ⟨fun _ => by simp [start], fun p v hv => by cases hv⟩

/-- While the threads sleep, no level-triggered item is ready. -/
theorem level_noticed {es : List (Event φ τ)} (hrun : Run Step start es s) (hslept : s.Slept)
    (hv : s.ep.items p = some v) (hhook : 0 < v.pwqlist) (het : v.event.events &&& epollEt = 0) :
    s.files v.ffd.file &&& v.event.events = 0 := by
  have hlevel : s.Inv ∧ s.Level :=
    Run.invariant (I := fun s => s.Inv ∧ s.Level)
      (fun _ _ _ hs hstep => ⟨hstep.inv hs.1, hstep.level hs.1 hs.2⟩) hrun ⟨start_inv, start_level⟩
  by_contra hready
  have hmtx : ∀ m, m ≠ .free → s.mtx ≠ m := fun m hm => hslept.mtx ▸ hm.symm
  obtain ⟨hq, hc⟩ := hslept.unqueued hlevel.1 (run_not_lost hrun) p
  rcases hlevel.2.attended p v hv hhook het hready with h | h | h | h | ⟨r, h, -⟩ | ⟨t, sent, r, h⟩
  · exact hq h
  · exact hc h
  all_goals exact hmtx _ (by simp) h

/-- The input is read before the thread that was called looks at the item. -/
theorem level_noticed_consumed : ∃ s : System Unit Unit, s.threads () = .asleep 4 none ∧
    s.files () &&& (ctlEvent ⟨1, 7⟩).events = 0 := by
  apply Exists.intro
  refine ⟨?_, ?_⟩
  rotate_left
  · apply level_noticed (p := 1) (v := ⟨.unactive, ⟨(), 5⟩, 1, 1, ctlEvent ⟨1, 7⟩⟩)
    · show Run Step start (watched 1 ++ [.device () 1 1, .consume () 1, .callback 1 1, .wait () 4 none, .look () false,
        .splice (), .next, .poll 1, .next, .requeue, .look () false]) _
      apply Run.cons (.insert rfl rfl rfl)
      apply Run.cons (.queueProc rfl rfl)
      apply Run.cons (.insertPoll rfl rfl)
      apply Run.cons (.insertReady rfl rfl (by decide) rfl rfl)
      apply Run.cons (.device (by decide) (.inr (by decide)))
      apply Run.cons .consume
      apply Run.cons (.callback (by decide) rfl (.none (by rintro _ _ _ ⟨⟩)))
      apply Run.cons (.wait rfl (by decide))
      apply Run.cons (.look (.inl rfl))
      apply Run.cons (.splice rfl rfl)
      apply Run.cons (.take rfl rfl rfl (by decide))
      apply Run.cons (.poll rfl rfl)
      apply Run.cons (.stop rfl rfl (.inl rfl))
      apply Run.cons (.requeue rfl rfl (Yields.of_add 3 fun _ => rfl) rfl)
      apply Run.cons (.look (.inl rfl))
      exact Run.nil _
    · refine ⟨⟨⟨(), 4, none, rfl⟩, fun t m j => ⟨by rintro ⟨⟩, by rintro ⟨⟩⟩⟩, rfl, fun p => ?_⟩
      by_cases hp : p = 1
      · subst hp
        rfl
      · simp [wakeFile, hp, start, Hooked, Eventpoll.insertItem, Eventpoll.alloc]
    · rfl
    · decide
    · decide
  · rfl

end System

end Epoll
