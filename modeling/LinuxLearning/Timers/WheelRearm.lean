-- SUMMARY: The timer wheel with callbacks that add timers, and when a timer that sets itself again fires.
import LinuxLearning.Timers.WheelCountdown

/-!
# Timers that set themselves again

A callback runs while `tick` walks the list of the current slot, before the wheel moves on. A
timer that it adds to this slot goes to the head, which the walk has passed, so the first visit
to it is a whole round later.
-/

namespace Timers

open Memory DoublyLinked Transition

namespace TimeWheel

/-- A timer that a client adds, at the address that `new` answers. -/
structure Added where
  address : Ptr
  timeout : Int
  cbFunc : Nat
  userData : Option Ptr
deriving Repr, DecidableEq

/-- What each callback of a tick adds. -/
abbrev Adds := Call → List Added

/-- `add_timer`, and the callback that the client sets. -/
def add (w : TimeWheel) (a : Added) : Except Fault TimeWheel := do
  return (← exec 0 w (.addTimer a.address a.timeout a.cbFunc a.userData)).1

def callbackOf (adds : Adds) : Callback :=
  fun c w => (adds c).foldlM add w

/-- `new` answers with addresses that are not in use, when those in `live` are as the first of
    the callbacks runs. Behind each callback its timer is deleted. -/
def Unused (adds : Adds) : (Ptr → Prop) → List Call → Prop
  | _, [] => True
  | live, c :: cs =>
    ((adds c).map Added.address).Nodup ∧ (∀ a ∈ adds c, ¬ live a.address) ∧
      Unused adds (fun p => (live p ∨ p ∈ (adds c).map Added.address) ∧ p ≠ c.timer) cs

def Live (w : TimeWheel) (p : Ptr) : Prop :=
  (w.store p).isSome

variable {w w' : TimeWheel} {ls : Int → List Entry} {es es' pre post : List Entry} {p q : Ptr}
  {d : TwTimerData} {i j c : Int} {adds : Adds} {live : Ptr → Prop}

-- ---------------------------------------------------------------------------
-- Adding several timers
-- ---------------------------------------------------------------------------

/-- The slots with timers put in, the last one added first. -/
def inserted (es : List Entry) (ls : Int → List Entry) : Int → List Entry :=
  fun i => es.filter (fun e => e.2.timeSlot = i) ++ ls i

theorem inserted_append (es es' : List Entry) (ls : Int → List Entry) :
    inserted (es ++ es') ls = inserted es (inserted es' ls) := by
  funext i
  simp only [inserted, List.filter_append, List.append_assoc]

theorem inserted_singleton (e : Entry) (ls : Int → List Entry) :
    inserted [e] ls = Function.update ls e.2.timeSlot (e :: ls e.2.timeSlot) := by
  funext i
  by_cases hi : i = e.2.timeSlot
  · subst hi
    simp [inserted]
  · rw [Function.update_of_ne hi]
    simp [inserted, Ne.symm hi]

theorem inserted_update (es : List Entry) (ls : Int → List Entry) (i : Int) (l : List Entry) :
    Function.update (inserted es ls) i (es.filter (fun e => e.2.timeSlot = i) ++ l) =
      inserted es (Function.update ls i l) := by
  funext j
  by_cases hj : j = i
  · subst hj
    simp [inserted]
  · rw [Function.update_of_ne hj, inserted, inserted, Function.update_of_ne hj]

/-- The entry of an added timer, when the wheel is at `c`. -/
def Added.entry (c : Int) (a : Added) : Entry :=
  (a.address, clientTimer c a.timeout a.cbFunc a.userData)

theorem Inv.addOne (h : Inv w ls) {a : Added} (hnew : ¬ Live w a.address) (ht : 0 ≤ a.timeout) :
    ∃ w', TimeWheel.add w a = .ok w' ∧ w'.curSlot = w.curSlot ∧ Inv w' (inserted [a.entry w.curSlot] ls) := by
  have hnone : w.store a.address = none := by simpa [Live] using hnew
  obtain ⟨w', hrun, hcur, hinv⟩ := h.add ⟨hnone, ht⟩ a.cbFunc a.userData
  refine ⟨w', by simp only [TimeWheel.add, hrun, ok_bind, pure_eq_ok], hcur, ?_⟩
  rw [inserted_singleton]
  exact hinv

theorem Inv.addAll {as : List Added} (h : Inv w ls) (hnodup : (as.map Added.address).Nodup)
    (hnew : ∀ a ∈ as, ¬ Live w a.address) (ht : ∀ a ∈ as, 0 ≤ a.timeout) :
    ∃ w', as.foldlM TimeWheel.add w = .ok w' ∧ w'.curSlot = w.curSlot ∧
      Inv w' (inserted (as.reverse.map (Added.entry w.curSlot)) ls) := by
  induction as generalizing w ls with
  | nil => exact ⟨w, rfl, rfl, h⟩
  | cons a as ih =>
    rw [List.map_cons, List.nodup_cons] at hnodup
    rw [List.forall_mem_cons] at hnew ht
    obtain ⟨w₁, hrun₁, hcur₁, h₁⟩ := h.addOne hnew.1 ht.1
    have hnew₁ : ∀ b ∈ as, ¬ Live w₁ b.address := by
      intro b hb hlive
      obtain ⟨i, hi⟩ := h₁.isSome_iff.mp hlive
      rw [inserted, addrs_append, List.mem_append] at hi
      rcases hi with hi | hi
      · obtain ⟨d, hd⟩ := exists_mem hi
        have he := List.mem_singleton.mp (List.mem_filter.mp hd).1
        exact hnodup.1 (List.mem_map.mpr ⟨b, hb, congrArg Prod.fst he⟩)
      · exact hnew.2 b hb (h.isSome_iff.mpr ⟨i, hi⟩)
    obtain ⟨w', hrun, hcur, hinv⟩ := ih h₁ hnodup.2 hnew₁ ht.2
    refine ⟨w', by rw [List.foldlM_cons, hrun₁, ok_bind, hrun], hcur.trans hcur₁, ?_⟩
    rw [List.reverse_cons, List.map_append, inserted_append, ← hcur₁]
    rw [← hcur₁] at hinv
    exact hinv

-- ---------------------------------------------------------------------------
-- The loop of `tick`
-- ---------------------------------------------------------------------------

/-- What the callbacks of a visit add to the slots. -/
def news (adds : Adds) (c : Int) (cs : List Call) : List Entry :=
  (cs.flatMap adds).reverse.map (Added.entry c)

theorem news_cons (adds : Adds) (c : Int) (call : Call) (cs : List Call) :
    news adds c (call :: cs) = news adds c cs ++ (adds call).reverse.map (Added.entry c) := by
  rw [news, List.flatMap_cons, List.reverse_append, List.map_append]
  rfl

/-- A timer that is due is the first one called from its node on. -/
theorem tickLoop_calls {callback : Callback} {v : TwTimer} {f n : Nat} {cs : List Call}
    (hp : w.store p = some v) (hr : ¬ 0 < v.val.rotation) (hf : v.val.cbFunc = some f)
    (hrun : tickLoop callback n w (some p) = .ok (w', cs)) :
    ∃ cs', cs = ⟨p, f, v.val.userData⟩ :: cs' := by
  cases n with
  | zero => cases hrun
  | succ n =>
    have hens : Ensures (tickLoop callback (n + 1) w (some p)) fun r =>
        ∃ cs', r.2 = ⟨p, f, v.val.userData⟩ :: cs' := by
      have hcall : callOf p v.val = .ok ⟨p, f, v.val.userData⟩ := by
        rw [callOf, hf]
        rfl
      rw [tickLoop, deref_of_live hp, ok_bind, if_neg hr, hcall, ok_bind]
      refine .bind_any fun w₀ => .bind_any fun head => .ite ?_ ?_
      · exact .bind_any fun w₁ => .bind_any fun s => .bind_any fun tmp => .bind_any fun r => .pure ⟨_, rfl⟩
      · exact .bind_any fun s => .bind_any fun t => .bind_any fun s => .bind_any fun r => .pure ⟨_, rfl⟩
    exact hens _ hrun

/-- The walk passes a timer with rounds to wait. -/
theorem Inv.wait (h : Inv w ls) (hls : ls w.curSlot = pre ++ (p, d) :: post) (hr : 0 < d.rotation)
    (callback : Callback) :
    ∃ w₁, (∀ n, tickLoop callback (n + 1) w (some p) = tickLoop callback n w₁ (first post none)) ∧
      w₁.curSlot = w.curSlot ∧ (∀ q, Live w₁ q → Live w q) ∧
      Inv w₁ (Function.update ls w.curSlot (pre ++ (p, { d with rotation := d.rotation - 1 }) :: post)) := by
  have hpl := h.placed w.curSlot (p, d) (by simp [hls])
  obtain ⟨w₁, hrun, hholds, hf⟩ := tickLoop_wait callback (hls ▸ h.holds w.curSlot) hr
  refine ⟨w₁, hrun, hf.cur, fun q hq => ?_,
    h.setVal hls ⟨hpl.slot, Int.le_sub_one_of_lt hr, hpl.callback⟩ hholds hf⟩
  by_cases hqp : q = p
  · exact h.isSome_iff.mpr ⟨w.curSlot, by simp [hls, hqp]⟩
  · rwa [Live, hf.store q (by simpa using hqp)] at hq

/-- A timer that is due is called and taken out. What its callback adds to the slot is in front
    of the walk. -/
theorem Inv.fire {f : Nat} (h : Inv w ls) (hls : ls w.curSlot = pre ++ (p, d) :: post)
    (hr : ¬ 0 < d.rotation) (hcb : d.cbFunc = some f)
    (hnodup : ((adds ⟨p, f, d.userData⟩).map Added.address).Nodup)
    (hnew : ∀ a ∈ adds ⟨p, f, d.userData⟩, ¬ Live w a.address)
    (ht : ∀ a ∈ adds ⟨p, f, d.userData⟩, 0 ≤ a.timeout) :
    ∃ w₁, (∀ n, tickLoop (callbackOf adds) (n + 1) w (some p) = do
        let (w', cs) ← tickLoop (callbackOf adds) n w₁ (first post none)
        return (w', ⟨p, f, d.userData⟩ :: cs)) ∧
      w₁.curSlot = w.curSlot ∧
      (∀ q, Live w₁ q → (Live w q ∨ q ∈ (adds ⟨p, f, d.userData⟩).map Added.address) ∧ q ≠ p) ∧
      Inv w₁ (inserted ((adds ⟨p, f, d.userData⟩).reverse.map (Added.entry w.curSlot))
        (Function.update ls w.curSlot (pre ++ post))) := by
  obtain ⟨-, hp, -⟩ := seg_split.mp (hls ▸ h.holds w.curSlot).seg
  obtain ⟨w₀, hcall, hcur₀, h₀⟩ := h.addAll hnodup hnew ht
  set E : List Entry := (adds ⟨p, f, d.userData⟩).reverse.map (Added.entry w.curSlot) with hE
  have hls₀ : inserted E ls w.curSlot = E.filter (fun e => e.2.timeSlot = w.curSlot) ++ pre ++ (p, d) :: post := by
    rw [inserted, hls, List.append_assoc]
  have hholds₀ := h₀.holds w.curSlot
  rw [hls₀] at hholds₀
  obtain ⟨w₁, hrun, hholds, hgone, hf⟩ := tickLoop_call h.cur ⟨_, hp, rfl⟩ hr hcb
    (show callbackOf adds ⟨p, f, d.userData⟩ w = .ok w₀ from hcall) hcur₀ hholds₀
  have hsub : E.filter (fun e => e.2.timeSlot = w.curSlot) ++ pre ++ post ⊆ inserted E ls w.curSlot := by
    rw [hls₀]
    exact List.append_subset.mpr ⟨List.subset_append_left .., fun e he =>
      List.mem_append_right _ (List.mem_cons_of_mem _ he)⟩
  have h₁ : Inv w₁ (Function.update (inserted E ls) w.curSlot
      (E.filter (fun e => e.2.timeSlot = w.curSlot) ++ pre ++ post)) := by
    refine h₀.replace h.cur (hls₀ ▸ hf.mono (List.subset_append_left ..)) hholds
      (fun e he => h₀.placed _ e (hsub he)) (fun q hq => .inl (List.map_subset _ hsub hq)) ?_
    intro q hq hq'
    have hqp : q = p := by
      rw [hls₀] at hq
      simp only [addrs_append, addrs_cons, List.mem_append, List.mem_cons] at hq hq'
      tauto
    rw [hqp, hgone]
  rw [List.append_assoc, inserted_update] at h₁
  refine ⟨w₁, hrun, hf.cur.trans hcur₀, fun q hq => ⟨?_, ?_⟩, h₁⟩
  · obtain ⟨i, hi⟩ := h₁.isSome_iff.mp hq
    rw [inserted, addrs_append, List.mem_append] at hi
    rcases hi with hi | hi
    · obtain ⟨d', hd'⟩ := exists_mem hi
      obtain ⟨a, ha, he⟩ := List.mem_map.mp (List.mem_filter.mp hd').1
      rw [List.mem_reverse] at ha
      exact .inr (List.mem_map.mpr ⟨a, ha, congrArg Prod.fst he⟩)
    · refine .inl (h.isSome_iff.mpr ⟨i, ?_⟩)
      by_cases hic : i = w.curSlot
      · subst hic
        rw [Function.update_self] at hi
        rw [hls]
        simp only [addrs_append, addrs_cons, List.mem_append, List.mem_cons] at hi ⊢
        tauto
      · rwa [Function.update_of_ne hic] at hi
  · rintro rfl
    rw [Live, hgone] at hq
    cases hq

/-- The loop of `tick` from a node on, whose calls are `cs`. A timer that a callback adds is put
    in front of the nodes that are left to visit. -/
theorem Inv.tickLoop (h : Inv w ls) (hls : ls w.curSlot = pre ++ post) {cs : List Call}
    (hcs : cs = calls post ∨ ∃ n w', tickLoop (callbackOf adds) n w (first post none) = .ok (w', cs))
    (hunused : Unused adds live cs) (ht : ∀ c ∈ cs, ∀ a ∈ adds c, 0 ≤ a.timeout)
    (hlive : ∀ p, Live w p → live p) :
    cs = calls post ∧ ∃ w', (∀ n, post.length < n →
        tickLoop (callbackOf adds) n w (first post none) = .ok (w', calls post)) ∧
      w'.curSlot = w.curSlot ∧
      Inv w' (inserted (news adds w.curSlot (calls post))
        (Function.update ls w.curSlot (pre ++ keep post))) := by
  induction post generalizing w ls pre live cs with
  | nil =>
    refine ⟨?_, w, ?_, rfl, ?_⟩
    · rcases hcs with hcs | ⟨_ | n, w', hrun⟩
      · exact hcs
      · cases hrun
      · cases hrun
        rfl
    · rintro (_ | n) hn
      · cases hn
      rfl
    · have hsame : Function.update ls w.curSlot (pre ++ keep []) = ls := by
        rw [show pre ++ keep [] = ls w.curSlot from hls.symm, Function.update_eq_self]
      rw [hsame]
      exact h
  | cons e post ih =>
    obtain ⟨p, d⟩ := e
    by_cases hr : 0 < d.rotation
    · obtain ⟨w₁, hrun₁, hcur₁, hlive₁, h₁⟩ := h.wait hls hr (callbackOf adds)
      rw [calls_cons_wait hr] at hcs ⊢
      rw [← hcur₁, List.append_cons] at h₁
      have hcs₁ : cs = calls post ∨
          ∃ n w', TimeWheel.tickLoop (callbackOf adds) n w₁ (first post none) = .ok (w', cs) := by
        refine hcs.imp_right ?_
        rintro ⟨_ | n, w', hrun⟩
        · cases hrun
        · exact ⟨n, w', (hrun₁ n).symm.trans hrun⟩
      obtain ⟨rfl, w', hrun, hcur, hinv⟩ := ih h₁ (Function.update_self ..) hcs₁ hunused ht
        fun q hq => hlive q (hlive₁ q hq)
      refine ⟨rfl, w', ?_, hcur.trans hcur₁, ?_⟩
      · rintro (_ | n) hn
        · cases hn
        rw [← hrun n (Nat.lt_of_succ_lt_succ hn)]
        exact hrun₁ n
      · rw [keep_cons_wait hr, List.append_cons]
        rwa [hcur₁, Function.update_idem] at hinv
    · have hpl := h.placed w.curSlot (p, d) (by simp [hls])
      obtain ⟨-, hp, -⟩ := seg_split.mp (hls ▸ h.holds w.curSlot).seg
      obtain ⟨f, hcb⟩ := Option.ne_none_iff_exists'.mp hpl.callback
      rw [calls_cons_due hr hcb] at hcs ⊢
      obtain ⟨cs, rfl⟩ : ∃ cs', cs = ⟨p, f, d.userData⟩ :: cs' := by
        rcases hcs with rfl | ⟨n, w', hrun⟩
        · exact ⟨_, rfl⟩
        · exact tickLoop_calls hp hr hcb hrun
      obtain ⟨hnodup, hnew, hrest⟩ := hunused
      rw [List.forall_mem_cons] at ht
      obtain ⟨w₁, hrun₁, hcur₁, hlive₁, h₁⟩ := h.fire hls hr hcb hnodup
        (fun a ha hl => hnew a ha (hlive _ hl)) ht.1
      have hls₁ : inserted ((adds ⟨p, f, d.userData⟩).reverse.map (Added.entry w.curSlot))
          (Function.update ls w.curSlot (pre ++ post)) w₁.curSlot =
          ((adds ⟨p, f, d.userData⟩).reverse.map (Added.entry w.curSlot)).filter
            (fun e => e.2.timeSlot = w.curSlot) ++ pre ++ post := by
        rw [hcur₁, inserted, Function.update_self, List.append_assoc]
      have hcs₁ : cs = calls post ∨
          ∃ n w', TimeWheel.tickLoop (callbackOf adds) n w₁ (first post none) = .ok (w', cs) := by
        refine hcs.imp (fun he => (List.cons.inj he).2) ?_
        rintro ⟨_ | n, w', hrun⟩
        · cases hrun
        · rw [first_cons, hrun₁] at hrun
          cases hloop : TimeWheel.tickLoop (callbackOf adds) n w₁ (first post none) with
          | error e =>
            rw [hloop] at hrun
            cases hrun
          | ok r =>
            rw [hloop] at hrun
            cases hrun
            exact ⟨n, _, hloop⟩
      obtain ⟨rfl, w', hrun, hcur, hinv⟩ := ih h₁ hls₁ hcs₁ hrest ht.2
        fun q hq => ⟨(hlive₁ q hq).1.imp_left (hlive q), (hlive₁ q hq).2⟩
      refine ⟨rfl, w', ?_, hcur.trans hcur₁, ?_⟩
      · rintro (_ | n) hn
        · cases hn
        rw [first_cons, hrun₁, hrun n (Nat.lt_of_succ_lt_succ hn)]
        rfl
      · rw [hcur₁, List.append_assoc, inserted_update, Function.update_idem, ← inserted_append] at hinv
        rw [news_cons, keep_cons_due hr]
        exact hinv

/-- A tick calls the timers of the current slot without rounds to wait, and keeps the wheel. -/
theorem Inv.tick_adds (h : Inv w ls) {cs : List Call}
    (hcs : cs = calls (ls w.curSlot) ∨ ∃ w', Yields (fun n => TimeWheel.tick (callbackOf adds) n w) (w', cs))
    (hunused : Unused adds (Live w) cs) (ht : ∀ c ∈ cs, ∀ a ∈ adds c, 0 ≤ a.timeout) :
    cs = calls (ls w.curSlot) ∧
    ∃ w', Yields (fun n => TimeWheel.tick (callbackOf adds) n w) (w', cs) ∧
      w'.curSlot = (w.curSlot + 1).tmod N ∧
      Inv w' (inserted (news adds w.curSlot cs) (Function.update ls w.curSlot (keep (ls w.curSlot)))) := by
  have hslot : w.slots w.curSlot = first (ls w.curSlot) none := (h.holds w.curSlot).head
  have hloop : cs = calls (ls w.curSlot) ∨
      ∃ n w', TimeWheel.tickLoop (callbackOf adds) n w (first (ls w.curSlot) none) = .ok (w', cs) := by
    refine hcs.imp_right ?_
    rintro ⟨w', k, hrun⟩
    have hk := hrun k (Nat.le_refl k)
    simp only [TimeWheel.tick, slot_ok h.cur, ok_bind, hslot] at hk
    cases hrec : TimeWheel.tickLoop (callbackOf adds) k w (first (ls w.curSlot) none) with
    | error e =>
      rw [hrec] at hk
      cases hk
    | ok r =>
      rw [hrec] at hk
      cases hk
      exact ⟨k, _, hrec⟩
  have hls : ls w.curSlot = [] ++ ls w.curSlot := rfl
  obtain ⟨rfl, w₁, hrun, hcur, h₁⟩ := Inv.tickLoop h hls hloop hunused ht fun _ hp => hp
  have hnext : 0 ≤ (w.curSlot + 1).tmod N ∧ (w.curSlot + 1).tmod N < N := by
    rw [(next_spec h.cur).1]
    exact (next_spec h.cur).2
  refine ⟨rfl, { w₁ with curSlot := (w.curSlot + 1).tmod N },
    ⟨(ls w.curSlot).length + 1, fun n hn => ?_⟩, rfl, h₁.advance hnext⟩
  simp only [TimeWheel.tick, slot_ok h.cur, ok_bind, hslot, hrun n hn, hcur, pure_eq_ok]

-- ---------------------------------------------------------------------------
-- What a tick does to one timer
-- ---------------------------------------------------------------------------

theorem Inv.pending_eq_none (h : Inv w ls) : pending w p = none ↔ ∀ i, p ∉ addrs (ls i) := by
  refine ⟨fun hnone i hi => ?_, h.pending_none⟩
  obtain ⟨d, hd⟩ := exists_mem hi
  rw [h.pending_mem hd, countdownOf, Option.map_eq_none_iff] at hnone
  exact (h.placed i _ hd).callback hnone

/-- A timer that is not due counts down. -/
theorem Inv.tick_waiting (h : Inv w ls) (hcur : w'.curSlot = (w.curSlot + 1).tmod N) {es : List Entry}
    (h' : Inv w' (inserted es (Function.update ls w.curSlot (keep (ls w.curSlot))))) {k : Nat}
    {x : Nat × Option Ptr} (hp : pending w p = some (k + 1, x)) : pending w' p = some (k, x) := by
  obtain ⟨i, hi⟩ : ∃ i, p ∈ addrs (ls i) := by
    by_contra hno
    rw [h.pending_none (not_exists.mp hno)] at hp
    cases hp
  obtain ⟨d, hd⟩ := exists_mem hi
  have hpl := h.placed i _ hd
  obtain ⟨f, hf⟩ : ∃ f, d.cbFunc = some f := Option.ne_none_iff_exists'.mp hpl.callback
  rw [h.pending_mem hd, countdownOf, hf, Option.map_some, Option.some.injEq, Prod.mk.injEq] at hp
  obtain ⟨hrem, rfl⟩ := hp
  by_cases hic : i = w.curSlot
  · subst hic
    have hr : 0 < d.rotation := by
      by_contra hr
      rw [remaining_due hr hpl] at hrem
      exact absurd hrem (Nat.succ_ne_zero k).symm
    have hd' : (p, { d with rotation := d.rotation - 1 }) ∈
        inserted es (Function.update ls w.curSlot (keep (ls w.curSlot))) w.curSlot := by
      rw [inserted, Function.update_self]
      exact List.mem_append_right _ (mem_keep hd hr)
    rw [remaining_wait h.cur hr hpl, ← hcur] at hrem
    rw [h'.pending_mem hd', countdownOf, ← Nat.succ.inj hrem]
    exact congrArg _ hf
  · have hd' : (p, d) ∈ inserted es (Function.update ls w.curSlot (keep (ls w.curSlot))) i := by
      rw [inserted, Function.update_of_ne hic]
      exact List.mem_append_right _ hd
    rw [remaining_other h.cur (h.range i (List.ne_nil_of_mem hd)) hic hpl, ← hcur] at hrem
    rw [h'.pending_mem hd', countdownOf, hf, Option.map_some, Nat.succ.inj hrem]

/-- The ticks from the one whose callback calls `add_timer(T)` to the one that fires the timer. -/
def period (T : Nat) : Nat :=
  if (T : Int) % N = 0 then T + N.toNat else T

theorem remaining_clientTimer {T : Nat} (hT : 1 ≤ T) (hc : 0 ≤ c ∧ c < N) (f : Nat) (u : Option Ptr) :
    remaining ((c + 1).tmod N) (clientTimer c T f u) + 1 = period T := by
  have hticks : ticksOf (T : Int) = T := by
    rw [ticksOf_eq (Int.natCast_nonneg T), SI]
    omega
  have hr : (T : Int).tdiv N = T / N := Int.tdiv_eq_ediv_of_nonneg (Int.natCast_nonneg T)
  have hm : (T : Int).tmod N = T % N := Int.tmod_eq_emod_of_nonneg (Int.natCast_nonneg T)
  have hts : (c + (T : Int) % N).tmod N = (c + (T : Int) % N) % N :=
    Int.tmod_eq_emod_of_nonneg (by simp only [N] at hc ⊢; omega)
  rw [period]
  by_cases hround : (T : Int) % N = 0
  · rw [if_pos hround]
    simp only [remaining, clientTimer, newTimer, hticks, hr, hm, hts, (next_spec hc).1]
    simp only [N] at hc hround ⊢
    omega
  · rw [if_neg hround]
    simp only [remaining, clientTimer, newTimer, hticks, hr, hm, hts, (next_spec hc).1]
    simp only [N] at hc hround ⊢
    omega

/-- A timer that a callback adds has its period before it, of which this tick is the first. -/
theorem Inv.tick_added (h : Inv w ls) (hcur : w'.curSlot = (w.curSlot + 1).tmod N) {cs : List Call}
    {ls' : Int → List Entry} (h' : Inv w' (inserted (news adds w.curSlot cs) ls')) {call : Call}
    (hcall : call ∈ cs) {a : Added} (ha : a ∈ adds call) {T : Nat} (hT : 1 ≤ T) (hat : a.timeout = T) :
    ∃ k, pending w' a.address = some (k, a.cbFunc, a.userData) ∧ k + 1 = period T := by
  have hmem : a.entry w.curSlot ∈ news adds w.curSlot cs :=
    List.mem_map_of_mem (List.mem_reverse.mpr (List.mem_flatMap.mpr ⟨call, hcall, ha⟩))
  have hin : (a.address, clientTimer w.curSlot a.timeout a.cbFunc a.userData) ∈
      inserted (news adds w.curSlot cs) ls' (a.entry w.curSlot).2.timeSlot :=
    List.mem_append_left _ (List.mem_filter.mpr ⟨hmem, decide_eq_true rfl⟩)
  refine ⟨remaining w'.curSlot (clientTimer w.curSlot a.timeout a.cbFunc a.userData), ?_, ?_⟩
  · rw [h'.pending_mem hin]
    rfl
  · rw [hat, hcur, remaining_clientTimer hT h.cur]

-- ---------------------------------------------------------------------------
-- Runs
-- ---------------------------------------------------------------------------

namespace Rearm

/-- What happens to the wheel. -/
inductive Action where
  | add (a : Added)
  | del (p : Ptr)
  | tick (adds : Adds)

/-- An action, and the calls made in it. -/
abbrev Event := Action × List Call

inductive Step : TimeWheel → Event → TimeWheel → Prop where
  | add {w w' : TimeWheel} {a : Added} :
      TimeWheel.Step w (.addTimer a.address a.timeout a.cbFunc a.userData, []) w' →
      Step w (.add a, []) w'
  | del {w w' : TimeWheel} {p : Ptr} : TimeWheel.Step w (.delTimer p, []) w' → Step w (.del p, []) w'
  | tick {w w' : TimeWheel} {adds : Adds} {cs : List Call} : Unused adds (Live w) cs →
      (∀ c ∈ cs, ∀ a ∈ adds c, 0 ≤ a.timeout) →
      Yields (fun n => TimeWheel.tick (callbackOf adds) n w) (w', cs) → Step w (.tick adds, cs) w'

/-- The client leaves the timer `p` alone, and its callback calls `add_timer(T)` with the same
    callback, and so does that of the timer added. For each tick of the run, whether the timer
    fires in it. -/
inductive Rearmed (T : Nat) : Ptr → List Event → List Bool → Prop where
  | nil (p : Ptr) : Rearmed T p [] []
  | add {p : Ptr} {a : Added} {cs : List Call} {es : List Event} {bs : List Bool} :
      Rearmed T p es bs → Rearmed T p ((.add a, cs) :: es) bs
  | del {p q : Ptr} {cs : List Call} {es : List Event} {bs : List Bool} : q ≠ p →
      Rearmed T p es bs → Rearmed T p ((.del q, cs) :: es) bs
  | silent {p : Ptr} {adds : Adds} {cs : List Call} {es : List Event} {bs : List Bool} :
      (∀ c ∈ cs, c.timer ≠ p) → Rearmed T p es bs →
      Rearmed T p ((.tick adds, cs) :: es) (false :: bs)
  | call {adds : Adds} {cs : List Call} {c : Call} {q : Ptr} {es : List Event} {bs : List Bool} :
      c ∈ cs → adds c = [⟨q, T, c.cbFunc, c.userData⟩] → Rearmed T q es bs →
      Rearmed T c.timer ((.tick adds, cs) :: es) (true :: bs)

variable {T k : Nat} {x : Nat × Option Ptr} {cs : List Call} {es : List Event} {bs : List Bool}

/-- What a tick does to the slots. -/
theorem Step.tick_inv (h : Inv w ls) (hstep : Step w (.tick adds, cs) w') :
    cs = calls (ls w.curSlot) ∧ w'.curSlot = (w.curSlot + 1).tmod N ∧
      Inv w' (inserted (news adds w.curSlot cs) (Function.update ls w.curSlot (keep (ls w.curSlot)))) := by
  cases hstep with
  | tick hunused ht hrun =>
    obtain ⟨hcs, w₁, hrun₁, hcur, h₁⟩ := h.tick_adds (.inr ⟨w', hrun⟩) hunused ht
    obtain rfl : w' = w₁ := congrArg Prod.fst (hrun.unique hrun₁)
    exact ⟨hcs, hcur, h₁⟩

theorem Step.inv {e : Event} (h : ∃ ls, Inv w ls) (hstep : Step w e w') : ∃ ls, Inv w' ls := by
  obtain ⟨ls, hinv⟩ := h
  cases hstep with
  | add hstep => exact (Inv.step ⟨ls, hinv⟩ hstep).2
  | del hstep => exact (Inv.step ⟨ls, hinv⟩ hstep).2
  | tick hunused ht hrun => exact ⟨_, (Step.tick_inv hinv (.tick hunused ht hrun)).2.2⟩

/-- A tick calls a pending timer exactly if it has no ticks left. -/
theorem Step.tick_calls (h : Inv w ls) (hstep : Step w (.tick adds, cs) w')
    (hp : pending w p = some (k, x)) :
    (∀ c ∈ cs, c.timer = p → k = 0 ∧ c = ⟨p, x.1, x.2⟩) ∧ ((∀ c ∈ cs, c.timer ≠ p) → k ≠ 0) := by
  obtain ⟨rfl, -, -⟩ := Step.tick_inv h hstep
  have hdue := h.calls_due p
  rw [hp] at hdue
  constructor
  · rintro c hc rfl
    have hmem : c.fired ∈ ((calls (ls w.curSlot)).map Call.fired).filter (fun y => y.1 = c.timer) :=
      List.mem_filter.mpr ⟨List.mem_map_of_mem hc, decide_eq_true rfl⟩
    rw [hdue] at hmem
    cases k with
    | succ k => cases hmem
    | zero =>
      have he := List.mem_singleton.mp hmem
      exact ⟨rfl, Call.fired_injective he⟩
  · rintro hno rfl
    have hmem : (p, x) ∈ ((calls (ls w.curSlot)).map Call.fired).filter (fun y => y.1 = p) := by
      rw [hdue]
      exact List.mem_singleton.mpr rfl
    obtain ⟨c, hc, he⟩ := List.mem_map.mp (List.mem_filter.mp hmem).1
    exact hno c hc (congrArg Prod.fst he)

theorem dvd_iff_le_sub {P m : Nat} (hm : 0 < m) : P ≤ m ∧ P ∣ m - P ↔ P ∣ m := by
  constructor
  · rintro ⟨hle, hdvd⟩
    rw [← Nat.sub_add_cancel hle]
    exact Nat.dvd_add hdvd (Nat.dvd_refl P)
  · exact fun h => ⟨Nat.le_of_dvd hm h, Nat.dvd_sub h (Nat.dvd_refl P)⟩

/-- A timer with `k` ticks to wait fires then, and from then on with its period. -/
theorem rearmed_fires (hT : 1 ≤ T) (hre : Rearmed T p es bs) (hrun : Run Step w es w')
    (h : ∃ ls, Inv w ls) (hp : pending w p = some (k, x)) (j : Nat) (b : Bool) (hj : bs[j]? = some b) :
    b = true ↔ k ≤ j ∧ period T ∣ j - k := by
  induction hre generalizing w k x j with
  | nil p => cases hj
  | @add p a cs es bs hre ih =>
    obtain ⟨w₁, hstep, hrest⟩ := Run.cons_iff.mp hrun
    cases hstep with
    | add hstep =>
      obtain ⟨hcd, h₁⟩ := Inv.step h hstep
      have heff := Countdown.Step.effect hcd p
      have hne : p ≠ a.address := by
        rintro rfl
        obtain ⟨ls, hinv⟩ := h
        have hnone : w.store a.address = none := hstep.1.1
        rw [hinv.pending_none (hinv.fresh hnone)] at hp
        cases hp
      have hp₁ : pending w₁ p = some (k, x) := by
        rw [heff, ← hp]
        exact if_neg hne
      exact ih hrest h₁ hp₁ j hj
  | @del p q cs es bs hq hre ih =>
    obtain ⟨w₁, hstep, hrest⟩ := Run.cons_iff.mp hrun
    cases hstep with
    | del hstep =>
      obtain ⟨hcd, h₁⟩ := Inv.step h hstep
      have hp₁ : pending w₁ p = some (k, x) := by
        rw [Countdown.Step.effect hcd p, ← hp]
        exact if_neg hq.symm
      exact ih hrest h₁ hp₁ j hj
  | @silent p adds cs es bs hno hre ih =>
    obtain ⟨w₁, hstep, hrest⟩ := Run.cons_iff.mp hrun
    obtain ⟨ls, hinv⟩ := h
    obtain ⟨k, rfl⟩ := Nat.exists_eq_succ_of_ne_zero ((Step.tick_calls hinv hstep hp).2 hno)
    obtain ⟨-, hcur, hinv'⟩ := Step.tick_inv hinv hstep
    have hp₁ := hinv.tick_waiting hcur hinv' hp
    cases j with
    | zero =>
      cases hj
      simp
    | succ j =>
      rw [ih hrest ⟨_, hinv'⟩ hp₁ j hj, Nat.succ_le_succ_iff, Nat.succ_sub_succ]
  | @call adds cs c q es bs hc hadds hre ih =>
    obtain ⟨w₁, hstep, hrest⟩ := Run.cons_iff.mp hrun
    obtain ⟨ls, hinv⟩ := h
    obtain ⟨rfl, -⟩ := (Step.tick_calls hinv hstep hp).1 c hc rfl
    obtain ⟨-, hcur, hinv'⟩ := Step.tick_inv hinv hstep
    obtain ⟨k, hp₁, hk⟩ := hinv.tick_added hcur hinv' hc (hadds ▸ List.mem_singleton.mpr rfl) hT rfl
    cases j with
    | zero =>
      cases hj
      simp
    | succ j =>
      have hdvd : k + 1 ≤ j + 1 ∧ k + 1 ∣ j + 1 - (k + 1) ↔ k + 1 ∣ j + 1 :=
        dvd_iff_le_sub (Nat.succ_pos j)
      rw [Nat.succ_sub_succ, Nat.succ_le_succ_iff] at hdvd
      rw [ih hrest ⟨_, hinv'⟩ hp₁ j hj, ← hk, hdvd]
      simp

/-- A timer that a tick calls has no ticks left. -/
theorem pending_of_call (h : Inv w ls) {c : Call} (hc : c ∈ calls (ls w.curSlot)) :
    pending w c.timer = some (0, c.cbFunc, c.userData) := by
  have hmem : c.fired ∈ ((calls (ls w.curSlot)).map Call.fired).filter (fun y => y.1 = c.timer) :=
    List.mem_filter.mpr ⟨List.mem_map_of_mem hc, decide_eq_true rfl⟩
  rw [h.calls_due] at hmem
  match hp : pending w c.timer with
  | none =>
    rw [hp] at hmem
    cases hmem
  | some (k + 1, x) =>
    rw [hp] at hmem
    cases hmem
  | some (0, x) =>
    rw [hp] at hmem
    have he : c.fired = (c.timer, x) := List.mem_singleton.mp hmem
    rw [← (Prod.mk.inj he).2]

/-- From a tick in which it fires on, a timer that sets itself again with a timeout of `T`
    fires in every `T`-th tick and in no other, exactly if `T` is not a multiple of the number of
    slots, or the run ends before the `T`-th tick. -/
theorem rearmed_fires_iff {T : Nat} (hT : 1 ≤ T) {w w' : TimeWheel} (h : ∃ ls, Inv w ls) {adds : Adds}
    {cs : List Call} {es : List Event} (hrun : Run Step w ((.tick adds, cs) :: es) w') {p : Ptr}
    {bs : List Bool} (hre : Rearmed T p ((.tick adds, cs) :: es) (true :: bs)) :
    (∀ j b, (true :: bs)[j]? = some b → (b = true ↔ T ∣ j)) ↔
      (T : Int) % N ≠ 0 ∨ (true :: bs).length ≤ T := by
  have hp : ∃ x, pending w p = some (0, x) := by
    obtain ⟨ls, hinv⟩ := h
    obtain ⟨w₁, hstep, -⟩ := Run.cons_iff.mp hrun
    obtain ⟨rfl, -⟩ := Step.tick_inv hinv hstep
    cases hre with
    | call hc _ _ => exact ⟨_, pending_of_call hinv hc⟩
  obtain ⟨x, hp⟩ := hp
  have hfires : ∀ j b, (true :: bs)[j]? = some b → (b = true ↔ period T ∣ j) := by
    intro j b hj
    rw [rearmed_fires hT hre hrun h hp j b hj, Nat.sub_zero]
    simp
  constructor
  · intro hevery
    by_contra hnot
    rw [not_or, not_not, not_le] at hnot
    obtain ⟨b, hb⟩ : ∃ b, (true :: bs)[T]? = some b := ⟨_, List.getElem?_eq_getElem hnot.2⟩
    have hdvd : period T ∣ T := (hfires T b hb).mp ((hevery T b hb).mpr (Nat.dvd_refl T))
    have hle := Nat.le_of_dvd hT hdvd
    rw [period, if_pos hnot.1] at hle
    simp only [N] at hle
    omega
  · rintro (hslots | hshort) j b hj
    · rw [hfires j b hj, period, if_neg hslots]
    · have hlt : j < T := by
        obtain ⟨hlen, -⟩ := List.getElem?_eq_some_iff.mp hj
        omega
      have hperiod : T ≤ period T := by
        rw [period]
        split <;> omega
      rw [hfires j b hj, Nat.dvd_iff_mod_eq_zero, Nat.dvd_iff_mod_eq_zero, Nat.mod_eq_of_lt hlt,
        Nat.mod_eq_of_lt (hlt.trans_le hperiod)]

/-- A wheel at slot 1 with one timer, which is due there. -/
def oneTimer : TimeWheel where
  store := Function.update (fun _ => none) 0 (some ⟨⟨0, 1, some 7, none⟩, none, none⟩)
  slots := Function.update (fun _ => none) 1 (some 0)
  curSlot := 1

theorem oneTimer_inv : Inv oneTimer (Function.update (fun _ => []) 1 [(0, ⟨0, 1, some 7, none⟩)]) where
  cur := by decide
  holds := (Function.forall_update_iff _ fun i es => Holds oneTimer i es).mpr
    ⟨⟨⟨rfl, trivial⟩, by simp, rfl⟩, fun i hi => ⟨trivial, by simp, by simp [oneTimer, hi]⟩⟩
  placed := (Function.forall_update_iff _ fun i (es : List Entry) => ∀ e ∈ es, Placed i e.2).mpr
    ⟨List.forall_mem_singleton.mpr ⟨rfl, by decide, by simp⟩, by simp⟩
  range := (Function.forall_update_iff _ fun i es => es ≠ [] → 0 ≤ i ∧ i < N).mpr
    ⟨fun _ => by decide, by simp⟩
  live p v hv := by
    by_cases hp : p = 0
    · subst hp
      cases hv
      simp
    · simp [oneTimer, hp] at hv

/-- A timeout of two ticks, and the second tick behind the one in which the timer fires. -/
theorem rearmed_fires_iff_two :
    ∃ w, Run Step oneTimer [(.tick fun _ => [⟨1, 2, 7, none⟩], [⟨0, 7, none⟩]), (.tick fun _ => [], []),
        (.tick fun _ => [⟨2, 2, 7, none⟩], [⟨1, 7, none⟩])] w ∧
      ((∀ j b, [true, false, true][j]? = some b → (b = true ↔ 2 ∣ j)) ↔
        ((2 : Nat) : Int) % N ≠ 0 ∨ [true, false, true].length ≤ 2) := by
  have hrun : ∃ w, Run Step oneTimer [(.tick fun _ => [⟨1, 2, 7, none⟩], [⟨0, 7, none⟩]),
      (.tick fun _ => [], []), (.tick fun _ => [⟨2, 2, 7, none⟩], [⟨1, 7, none⟩])] w :=
    ⟨_, .cons (.tick ⟨by simp, by simp [Live, oneTimer], trivial⟩ (by simp) (Yields.of_add 2 fun _ => rfl))
      (.cons (.tick trivial (by simp) (Yields.of_add 1 fun _ => rfl))
        (.cons (.tick ⟨by simp, by simp [Live, oneTimer], trivial⟩ (by simp)
          (Yields.of_add 2 fun _ => rfl)) (.nil _)))⟩
  obtain ⟨w, hrun⟩ := hrun
  exact ⟨w, hrun, rearmed_fires_iff (by decide) ⟨_, oneTimer_inv⟩ hrun
    (.call (c := ⟨0, 7, none⟩) (by simp) rfl
      (.silent (by simp) (.call (c := ⟨1, 7, none⟩) (by simp) rfl (.nil _))))⟩

/-- Where no timer fires in the next `m` ticks, they make no calls. -/
theorem silent_ticks (adds : Adds) (m : Nat) (h : ∃ ls, Inv w ls)
    (hwait : ∀ p k x, pending w p = some (k, x) → m ≤ k) :
    ∃ w', Run Step w (List.replicate m (.tick adds, [])) w' := by
  induction m generalizing w with
  | zero => exact ⟨w, .nil w⟩
  | succ m ih =>
    obtain ⟨ls, hinv⟩ := h
    have hcs : [] = calls (ls w.curSlot) := by
      symm
      refine List.eq_nil_iff_forall_not_mem.mpr fun c hc => ?_
      exact absurd (hwait _ _ _ (pending_of_call hinv hc)) (Nat.not_succ_le_zero m)
    obtain ⟨-, w₁, hrun, hcur, hinv₁⟩ := hinv.tick_adds (.inl hcs)
      (show Unused adds (Live w) [] from trivial) (by simp)
    have hwait₁ : ∀ p k x, pending w₁ p = some (k, x) → m ≤ k := by
      intro p k x hp
      match hp₀ : pending w p with
      | none =>
        have hno := hinv.pending_eq_none.mp hp₀
        rw [hinv₁.pending_none fun i => ?_] at hp
        · cases hp
        · simp only [news, List.flatMap_nil, List.reverse_nil, List.map_nil, inserted, List.filter_nil,
            List.nil_append]
          exact (Function.forall_update_iff ls fun _ es => p ∉ addrs es).mpr
            ⟨fun hq => hno _ ((keep_addrs _).subset hq), fun i _ => hno i⟩ i
      | some (0, x₀) => exact absurd (hwait _ _ _ hp₀) (Nat.not_succ_le_zero m)
      | some (k₀ + 1, x₀) =>
        rw [hinv.tick_waiting hcur hinv₁ hp₀] at hp
        cases hp
        exact Nat.le_of_succ_le_succ (hwait _ _ _ hp₀)
    obtain ⟨w', hrest⟩ := ih ⟨_, hinv₁⟩ hwait₁
    exact ⟨w', .cons (.tick trivial (by simp) hrun) hrest⟩

/-- A timeout of one round: in the tick a round later the timer is not called. -/
theorem rearmed_round_late :
    ∃ w bs, Run Step oneTimer ((.tick fun _ => [⟨1, 60, 7, none⟩], [⟨0, 7, none⟩]) ::
        List.replicate 60 (.tick fun _ => [], [])) w ∧
      Rearmed 60 0 ((.tick fun _ => [⟨1, 60, 7, none⟩], [⟨0, 7, none⟩]) ::
        List.replicate 60 (.tick fun _ => [], [])) (true :: bs) ∧
      ¬ ∀ j b, (true :: bs)[j]? = some b → (b = true ↔ 60 ∣ j) := by
  obtain ⟨w₁, hstep, hpend⟩ : ∃ w₁, Step oneTimer (.tick fun _ => [⟨1, 60, 7, none⟩], [⟨0, 7, none⟩]) w₁ ∧
      ∀ p k x, pending w₁ p = some (k, x) → 60 ≤ k := by
    obtain ⟨w₁, hstep⟩ : ∃ w₁, Step oneTimer (.tick fun _ => [⟨1, 60, 7, none⟩], [⟨0, 7, none⟩]) w₁ :=
      ⟨_, .tick ⟨by simp, by simp [Live, oneTimer], trivial⟩ (by simp) (Yields.of_add 2 fun _ => rfl)⟩
    refine ⟨w₁, hstep, fun p k x hp => ?_⟩
    obtain ⟨-, hcur, hinv⟩ := Step.tick_inv oneTimer_inv hstep
    by_cases hp1 : p = 1
    · subst hp1
      obtain ⟨k', hp', hk'⟩ := oneTimer_inv.tick_added hcur hinv List.mem_cons_self List.mem_cons_self
        (show 1 ≤ 60 by decide) rfl
      rw [hp] at hp'
      cases hp'
      have hperiod : period 60 = 120 := by decide
      omega
    · rw [hinv.pending_none fun i hi => ?_] at hp
      · cases hp
      · -- the timer added is the only one left
        rw [inserted, addrs_append, List.mem_append] at hi
        rcases hi with hi | hi
        · obtain ⟨d, hd⟩ := exists_mem hi
          have he : (p, d) = Added.entry 1 ⟨1, 60, 7, none⟩ := List.mem_singleton.mp (List.mem_filter.mp hd).1
          exact hp1 (congrArg Prod.fst he)
        · by_cases hi1 : i = 1
          · simp [oneTimer, hi1, keep] at hi
          · simp [oneTimer, hi1] at hi
  obtain ⟨w, hrest⟩ := silent_ticks (fun _ => []) 60 (Step.inv ⟨_, oneTimer_inv⟩ hstep) hpend
  have hsilent : ∀ m, Rearmed 60 1 (List.replicate m (.tick fun _ => [], [])) (List.replicate m false) := by
    intro m
    induction m with
    | zero => exact .nil 1
    | succ m ih => exact .silent (by simp) ih
  refine ⟨w, List.replicate 60 false, .cons hstep hrest,
    .call (c := ⟨0, 7, none⟩) (by simp) rfl (hsilent 60), fun hevery => ?_⟩
  have h60 := hevery 60 false (by decide)
  simp at h60

end Rearm

end TimeWheel

end Timers
