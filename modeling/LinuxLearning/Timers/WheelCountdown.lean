-- SUMMARY: The timer wheel counts its timers down: each operation is a step of the countdown component, and when a timer fires in a run.
import LinuxLearning.Timers.Countdown
import LinuxLearning.Timers.WheelSlots

/-!
# The timer wheel as countdown timers

A timer in slot `i` with `rotation` rounds to wait is reached after `rotation * N` ticks
and those that the wheel needs to get to `i`. With this number for each node, every
operation on the wheel is the step of the countdown component.
-/

namespace Timers

open Memory DoublyLinked Transition

namespace TimeWheel

variable {w w' : TimeWheel} {ls : Int → List Entry} {es pre post : List Entry} {p q : Ptr}
  {d : TwTimerData} {i j c : Int}

/-- The number of ticks before the one that fires a timer, when the wheel is at `c`. -/
def remaining (c : Int) (d : TwTimerData) : Nat :=
  (d.rotation * N + (d.timeSlot - c) % N).toNat

/-- A timer as the countdown component has it: the ticks left, and its callback. -/
def countdownOf (c : Int) (d : TwTimerData) : Option (Nat × Nat × Option Ptr) :=
  d.cbFunc.map fun f => (remaining c d, f, d.userData)

/-- The countdown timers that the nodes of the wheel stand for. -/
def pending (w : TimeWheel) : Countdown.State Ptr (Nat × Option Ptr) :=
  fun p => (w.store p).bind fun v => countdownOf w.curSlot v.val

theorem Inv.pending_mem (h : Inv w ls) (he : (p, d) ∈ ls i) : pending w p = countdownOf w.curSlot d := by
  obtain ⟨v, hv, rfl⟩ := (h.holds i).seg.get he
  rw [pending, hv]
  rfl

theorem Inv.pending_none (h : Inv w ls) (hp : ∀ i, p ∉ addrs (ls i)) : pending w p = none := by
  rw [pending]
  cases hv : w.store p with
  | none => rfl
  | some v => exact absurd (h.live p v hv) (hp _)

/-- A timer is in no slot, or in the one where it is placed, with a callback. -/
theorem Inv.pending_cases (h : Inv w ls) (q : Ptr) :
    (pending w q = none ∧ ∀ i, q ∉ addrs (ls i)) ∨ ∃ i d f, (q, d) ∈ ls i ∧ Placed i d ∧ d.cbFunc = some f ∧
      pending w q = some (remaining w.curSlot d, f, d.userData) := by
  by_cases hex : ∃ i, q ∈ addrs (ls i)
  · obtain ⟨i, hi⟩ := hex
    obtain ⟨d, hd⟩ := exists_mem hi
    have hpl := h.placed i _ hd
    obtain ⟨f, hf⟩ := Option.ne_none_iff_exists'.mp hpl.callback
    refine .inr ⟨i, d, f, hd, hpl, hf, ?_⟩
    rw [h.pending_mem hd, countdownOf, hf]
    rfl
  · have hno : ∀ i, q ∉ addrs (ls i) := fun i hi => hex ⟨i, hi⟩
    exact .inl ⟨h.pending_none hno, hno⟩

/-- The countdown timer `q` depends on the entry for `q` alone. -/
theorem Inv.pending_congr {ls' : Int → List Entry} (h : Inv w ls) (h' : Inv w' ls')
    (hcur : w'.curSlot = w.curSlot) (hq : ∀ i d, (q, d) ∈ ls' i ↔ (q, d) ∈ ls i) :
    pending w' q = pending w q := by
  by_cases hex : ∃ i, q ∈ addrs (ls i)
  · obtain ⟨i, hi⟩ := hex
    obtain ⟨d, hd⟩ := exists_mem hi
    rw [h.pending_mem hd, h'.pending_mem ((hq i d).mpr hd), hcur]
  · have hno : ∀ i, q ∉ addrs (ls i) := fun i hi => hex ⟨i, hi⟩
    have hno' : ∀ i, q ∉ addrs (ls' i) := by
      intro i hi
      obtain ⟨d, hd⟩ := exists_mem hi
      exact hno i (mem_addrs ((hq i d).mp hd))
    rw [h.pending_none hno, h'.pending_none hno']

/-- What a client does with the wheel. It sets the callback of a timer as it gets it. -/
inductive Op where
  | addTimer (p : Ptr) (timeout : Int) (cbFunc : Nat) (userData : Option Ptr)
  | delTimer (timer : Ptr)
  | tick
deriving Repr, DecidableEq

/-- `new` gives an unused address, timeouts are not negative, and a timer that is deleted
    is pending: it is live from its addition until it is deleted or has fired. -/
def Legal (w : TimeWheel) : Op → Prop
  | .addTimer p timeout _ _ => w.store p = none ∧ 0 ≤ timeout
  | .delTimer p => (w.store p).isSome
  | .tick => True

/-- One operation, with fuel for the loop of `tick`, and the calls it makes. No callback
    touches the wheel. -/
def exec (n : Nat) (w : TimeWheel) : Op → Except Fault (TimeWheel × List Call)
  | .addTimer p timeout f u => do
    let (w, timer) ← addTimer w p timeout
    let s ← modify w.store timer fun v => { v with val := { v.val with cbFunc := some f, userData := u } }
    return ({ w with store := s }, [])
  | .delTimer p => do return (← delTimer w (some p), [])
  | .tick => tick idle n w

theorem ticksOf_eq {timeout : Int} (h : 0 ≤ timeout) : ticksOf timeout = max 1 (timeout / SI) := by
  rw [ticksOf, SI, Int.tdiv_eq_ediv_of_nonneg h]
  split <;> omega

/-- A new timer has all its ticks before it. -/
theorem newTimer_spec {timeout : Int} (h : 0 ≤ timeout) (hc : 0 ≤ c ∧ c < N) :
    0 ≤ (newTimer c timeout).rotation ∧
    (0 ≤ (newTimer c timeout).timeSlot ∧ (newTimer c timeout).timeSlot < N) ∧
    remaining c (newTimer c timeout) = (ticksOf timeout).toNat := by
  have hk : 0 ≤ ticksOf timeout := by
    rw [ticksOf_eq h]
    omega
  have hr : (ticksOf timeout).tdiv N = ticksOf timeout / N := Int.tdiv_eq_ediv_of_nonneg hk
  have hm : (ticksOf timeout).tmod N = ticksOf timeout % N := Int.tmod_eq_emod_of_nonneg hk
  have hts : (c + ticksOf timeout % N).tmod N = (c + ticksOf timeout % N) % N :=
    Int.tmod_eq_emod_of_nonneg (by simp only [N] at hc ⊢; omega)
  simp only [newTimer, remaining, hr, hm, hts]
  simp only [N] at hc ⊢
  omega

theorem next_spec (hc : 0 ≤ c ∧ c < N) : (c + 1).tmod N = (c + 1) % N ∧ 0 ≤ (c + 1) % N ∧ (c + 1) % N < N := by
  refine ⟨Int.tmod_eq_emod_of_nonneg (by omega), ?_, ?_⟩
  · exact Int.emod_nonneg _ (by decide)
  · exact Int.emod_lt_of_pos _ (by decide)

/-- A tick brings a timer of another slot one tick nearer. -/
theorem remaining_other (hc : 0 ≤ c ∧ c < N) (hi : 0 ≤ i ∧ i < N) (hne : i ≠ c) (hd : Placed i d) :
    remaining c d = remaining ((c + 1).tmod N) d + 1 := by
  obtain ⟨hslot, hrot, -⟩ := hd
  rw [(next_spec hc).1, remaining, remaining, hslot]
  simp only [N] at hc hi ⊢
  omega

/-- So it does with one of the slot that is visited, if it has rounds to wait. -/
theorem remaining_wait (hc : 0 ≤ c ∧ c < N) (hr : 0 < d.rotation) (hd : Placed c d) :
    remaining c d = remaining ((c + 1).tmod N) { d with rotation := d.rotation - 1 } + 1 := by
  obtain ⟨hslot, -, -⟩ := hd
  simp only [(next_spec hc).1, remaining, hslot]
  simp only [N] at hc ⊢
  omega

theorem remaining_due (hr : ¬ 0 < d.rotation) (hd : Placed c d) : remaining c d = 0 := by
  obtain ⟨hslot, hrot, -⟩ := hd
  rw [remaining, hslot, show d.rotation = 0 by omega]
  simp

/-- The members of a timer that a client adds and gives a callback. -/
def clientTimer (c timeout : Int) (f : Nat) (u : Option Ptr) : TwTimerData :=
  { newTimer c timeout with cbFunc := some f, userData := u }

/-- A timer that a client adds is at the head of its slot. -/
theorem Inv.add (h : Inv w ls) {timeout : Int} (hlegal : w.store p = none ∧ 0 ≤ timeout)
    (f : Nat) (u : Option Ptr) :
    ∃ w', (∀ n, exec n w (.addTimer p timeout f u) = .ok (w', [])) ∧ w'.curSlot = w.curSlot ∧
      Inv w' (Function.update ls (newTimer w.curSlot timeout).timeSlot
        ((p, clientTimer w.curSlot timeout f u) :: ls (newTimer w.curSlot timeout).timeSlot)) := by
  obtain ⟨hp, ht⟩ := hlegal
  obtain ⟨hrot, hts, -⟩ := newTimer_spec ht h.cur
  generalize hts' : (newTimer w.curSlot timeout).timeSlot = ts at hts ⊢
  have hpnew := h.fresh hp
  obtain ⟨w₁, hadd, hholds, hf⟩ := addTimer_ok (h.holds ts) (hpnew ts) ht hts' hts
  -- the client sets the callback of the timer it gets
  have hnew : Holds w₁ ts ([] ++ (p, newTimer w.curSlot timeout) :: ls ts) := hholds
  obtain ⟨hset, hframe⟩ := hnew.setVal (clientTimer w.curSlot timeout f u)
  have hf₂ : Frame w _ ts (addrs (ls ts) ++ p :: addrs (ls ts)) :=
    (hf.mono (by simp)).trans (hframe.mono (by simp))
  refine ⟨_, fun n => ?_, hf₂.cur, h.replace hts hf₂ hset ?_ ?_ fun q hq hq' => ?_⟩
  · simp [exec, hadd, hholds.seg.1, clientTimer]
  · exact List.forall_mem_cons.mpr ⟨⟨hts', hrot, Option.some_ne_none f⟩, h.placed ts⟩
  · exact List.forall_mem_cons.mpr ⟨.inr hp, fun q hq => .inl hq⟩
  · exact absurd (List.mem_cons_of_mem _ hq) hq'

/-- A timer is added with `max 1 (timeout / SI)` ticks to wait. -/
theorem Inv.addTimer (h : Inv w ls) {timeout : Int} (hlegal : w.store p = none ∧ 0 ≤ timeout)
    (f : Nat) (u : Option Ptr) :
    ∃ w' ls', (∀ n, exec n w (.addTimer p timeout f u) = .ok (w', [])) ∧ Inv w' ls' ∧
      Countdown.Step (pending w) (.add p (ticksOf timeout).toNat (f, u)) (pending w') := by
  obtain ⟨-, -, hrem⟩ := newTimer_spec hlegal.2 h.cur
  obtain ⟨w', hexec, hcur, hinv⟩ := h.add hlegal f u
  have hpnew := h.fresh hlegal.1
  have hpend : pending w' = Function.update (pending w) p (some ((ticksOf timeout).toNat, f, u)) := by
    funext q
    by_cases hqp : q = p
    · subst hqp
      rw [Function.update_self, hinv.pending_mem (i := (newTimer w.curSlot timeout).timeSlot)
        (d := clientTimer w.curSlot timeout f u) (by simp), hcur, ← hrem]
      rfl
    · rw [Function.update_of_ne hqp]
      refine h.pending_congr hinv hcur fun i d' => ?_
      by_cases hi : i = (newTimer w.curSlot timeout).timeSlot
      · subst hi
        simp [hqp]
      · rw [Function.update_of_ne hi]
  exact ⟨w', _, hexec, hinv, hpend ▸ .add (h.pending_none hpnew)⟩

theorem Inv.delTimer (h : Inv w ls) (hlive : (w.store p).isSome) :
    ∃ w' ls', (∀ n, exec n w (.delTimer p) = .ok (w', [])) ∧ Inv w' ls' ∧
      Countdown.Step (pending w) (.del p) (pending w') := by
  obtain ⟨i, pre, d, post, hls, hpl, hi⟩ := h.split hlive
  obtain ⟨w', hrun, hholds, hgone, hf⟩ := delTimer_ok (hls ▸ h.holds i) hpl.slot hi
  have hsub : pre ++ post ⊆ ls i := by
    rw [hls]
    exact List.append_subset.mpr ⟨by simp, by simp⟩
  have hinv : Inv w' (Function.update ls i (pre ++ post)) := by
    refine h.replace hi (hls ▸ hf.mono (List.subset_append_left ..)) hholds (fun e he => h.placed i e (hsub he)) ?_ ?_
    · exact fun q hq => .inl (List.map_subset _ hsub hq)
    · intro q hq hq'
      have hqp : q = p := by
        rw [hls] at hq
        simp only [addrs_append, addrs_cons, List.mem_append, List.mem_cons] at hq hq'
        tauto
      rw [hqp, hgone]
  have hpend : pending w' = Function.update (pending w) p none := by
    funext q
    by_cases hqp : q = p
    · subst hqp
      rw [Function.update_self, pending, hgone]
      rfl
    · rw [Function.update_of_ne hqp]
      refine h.pending_congr hinv hf.cur fun j d' => ?_
      by_cases hj : j = i
      · subst hj
        simp [hls, hqp]
      · rw [Function.update_of_ne hj]
  exact ⟨w', _, fun n => by simp [exec, hrun], hinv, hpend ▸ .del⟩

/-- The call as the countdown component has it. -/
def Call.fired (c : Call) : Ptr × Nat × Option Ptr :=
  (c.timer, c.cbFunc, c.userData)

/-- A tick counts every timer down. -/
theorem Inv.pending_tick (h : Inv w ls)
    (h' : Inv w' (Function.update ls w.curSlot (keep (ls w.curSlot))))
    (hcur : w'.curSlot = (w.curSlot + 1).tmod N) :
    pending w' = fun q => Countdown.countdown (pending w q) := by
  funext q
  rcases h.pending_cases q with ⟨hnone, hno⟩ | ⟨i, d, f, hd, hpl, hf, hpend⟩
  · rw [hnone]
    refine h'.pending_none fun j => ?_
    exact (Function.forall_update_iff ls fun j es => q ∉ addrs es).mpr
      ⟨fun hq => hno _ ((keep_addrs _).subset hq), fun j _ => hno j⟩ j
  rw [hpend]
  by_cases hic : i = w.curSlot
  · subst hic
    by_cases hr : 0 < d.rotation
    · have hd' : (q, { d with rotation := d.rotation - 1 }) ∈
          Function.update ls w.curSlot (keep (ls w.curSlot)) w.curSlot := by
        rw [Function.update_self]
        exact mem_keep hd hr
      rw [h'.pending_mem hd', countdownOf, hf, remaining_wait h.cur hr hpl, hcur]
      rfl
    · rw [remaining_due hr hpl]
      refine h'.pending_none fun j => ?_
      refine (Function.forall_update_iff ls fun j es => q ∉ addrs es).mpr
        ⟨not_mem_keep (h.holds _).nodup hd hr, fun j hj hq => hj (h.disjoint hq (mem_addrs hd))⟩ j
  · have hd' : (q, d) ∈ Function.update ls w.curSlot (keep (ls w.curSlot)) i := by
      rwa [Function.update_of_ne hic]
    have hrange := h.range i (List.ne_nil_of_mem hd)
    rw [h'.pending_mem hd', countdownOf, hf, remaining_other h.cur hrange hic hpl, hcur]
    rfl

/-- A tick calls the timers that have no ticks left. -/
theorem Inv.calls_due (h : Inv w ls) (q : Ptr) :
    ((calls (ls w.curSlot)).map Call.fired).filter (fun x => x.1 = q) =
      Countdown.due q (pending w q) := by
  rw [List.filter_map]
  change ((calls (ls w.curSlot)).filter fun c => c.timer = q).map Call.fired = _
  rcases h.pending_cases q with ⟨hnone, hno⟩ | ⟨i, d, f, hd, hpl, hf, hpend⟩
  · rw [hnone, calls_filter_none (hno _)]
    rfl
  rw [hpend]
  by_cases hic : i = w.curSlot
  · subst hic
    rw [calls_filter (h.holds _).nodup hd hf]
    by_cases hr : 0 < d.rotation
    · rw [if_pos hr, remaining_wait h.cur hr hpl]
      rfl
    · rw [if_neg hr, remaining_due hr hpl]
      rfl
  · have hrange := h.range i (List.ne_nil_of_mem hd)
    rw [calls_filter_none fun hq => hic (h.disjoint (mem_addrs hd) hq), remaining_other h.cur hrange hic hpl]
    rfl

theorem Inv.tick (h : Inv w ls) :
    ∃ w' ls' cs, (∃ k, ∀ n, k ≤ n → exec n w .tick = .ok (w', cs)) ∧ Inv w' ls' ∧
      Countdown.Step (pending w) (.tick (cs.map Call.fired)) (pending w') := by
  have hcb : ∀ e ∈ ls w.curSlot, e.2.cbFunc ≠ none := fun e he => (h.placed _ e he).callback
  obtain ⟨w₁, hrun, hholds, hf, hgone⟩ := tickLoop_ok h.cur
    (show Holds w w.curSlot ([] ++ ls w.curSlot) from h.holds w.curSlot) hcb
  have hsub := keep_addrs (ls w.curSlot)
  have hinv₁ : Inv w₁ (Function.update ls w.curSlot (keep (ls w.curSlot))) :=
    h.replace h.cur (hf.mono (List.subset_append_left ..)) hholds (keep_placed (h.placed _))
      (fun q hq => .inl (hsub.subset hq)) hgone
  have hnext : 0 ≤ (w.curSlot + 1).tmod N ∧ (w.curSlot + 1).tmod N < N := by
    rw [(next_spec h.cur).1]
    exact (next_spec h.cur).2
  have hinv := hinv₁.advance hnext
  refine ⟨_, _, calls (ls w.curSlot), ⟨(ls w.curSlot).length + 1, fun n hn => ?_⟩, hinv, ?_⟩
  · have hslot : w.slots w.curSlot = first (ls w.curSlot) none := (h.holds w.curSlot).head
    simp [exec, TimeWheel.tick, slot_ok h.cur, hslot, hrun n hn, hf.cur]
  · rw [h.pending_tick hinv rfl]
    exact .tick h.calls_due

/-- A call on the wheel and the calls it makes. -/
abbrev Event := Op × List Call

/-- A legal call returns with any fuel from some amount on. -/
def Step (w : TimeWheel) (e : Event) (w' : TimeWheel) : Prop :=
  Legal w e.1 ∧ ∃ k, ∀ n, k ≤ n → exec n w e.1 = .ok (w', e.2)

/-- The event of the countdown component. -/
def countdownEvent : Event → Countdown.Event Ptr (Nat × Option Ptr)
  | (.addTimer p timeout f u, _) => .add p (ticksOf timeout).toNat (f, u)
  | (.delTimer p, _) => .del p
  | (.tick, cs) => .tick (cs.map Call.fired)

/-- A legal call returns, keeps the invariant, and is a step of the countdown component. -/
theorem Inv.exec (h : Inv w ls) {op : Op} (hlegal : Legal w op) :
    ∃ w' ls' cs, Step w (op, cs) w' ∧ Inv w' ls' ∧
      Countdown.Step (pending w) (countdownEvent (op, cs)) (pending w') := by
  cases op with
  | addTimer p timeout f u =>
    obtain ⟨w', ls', hrun, hinv, hstep⟩ := h.addTimer hlegal f u
    exact ⟨w', ls', [], ⟨hlegal, 0, fun n _ => hrun n⟩, hinv, hstep⟩
  | delTimer p =>
    obtain ⟨w', ls', hrun, hinv, hstep⟩ := h.delTimer hlegal
    exact ⟨w', ls', [], ⟨hlegal, 0, fun n _ => hrun n⟩, hinv, hstep⟩
  | tick =>
    obtain ⟨w', ls', cs, hrun, hinv, hstep⟩ := h.tick
    exact ⟨w', ls', cs, ⟨hlegal, hrun⟩, hinv, hstep⟩

theorem Step.unique {op : Op} {cs cs' : List Call} {w₁ w₂ : TimeWheel} (h₁ : Step w (op, cs) w₁)
    (h₂ : Step w (op, cs') w₂) : cs = cs' ∧ w₁ = w₂ := by
  obtain ⟨-, k₁, h₁⟩ := h₁
  obtain ⟨-, k₂, h₂⟩ := h₂
  have h := (h₁ _ (Nat.le_max_left k₁ k₂)).symm.trans (h₂ _ (Nat.le_max_right k₁ k₂))
  rw [Except.ok.injEq, Prod.mk.injEq] at h
  exact ⟨h.2, h.1⟩

theorem Inv.step {e : Event} (h : ∃ ls, Inv w ls) (hstep : Step w e w') :
    Countdown.Step (pending w) (countdownEvent e) (pending w') ∧ ∃ ls, Inv w' ls := by
  obtain ⟨ls, h⟩ := h
  obtain ⟨op, cs⟩ := e
  obtain ⟨w₁, ls₁, cs₁, hstep₁, hinv, hcd⟩ := h.exec hstep.1
  obtain ⟨rfl, rfl⟩ := hstep.unique hstep₁
  exact ⟨hcd, ls₁, hinv⟩

theorem init_inv : Inv init fun _ => [] where
  cur := by decide
  holds _ := ⟨trivial, List.nodup_nil, rfl⟩
  placed := by simp
  range := by simp
  live := nofun

/-- A run of the wheel is one of the countdown component. -/
theorem run_countdown {es : List Event} (hrun : Run Step w es w') (h : ∃ ls, Inv w ls) :
    Run Countdown.Step (pending w) (es.map countdownEvent) (pending w') ∧ ∃ ls, Inv w' ls :=
  hrun.simulate pending countdownEvent (fun _ _ _ => Inv.step) h

/-- The number of `tick` calls in a run. -/
def ticks (es : List Event) : Nat :=
  es.countP fun e => e.1 = .tick

variable {es mid : List Event}

theorem ticks_countdown (es : List Event) : Countdown.ticks (es.map countdownEvent) = ticks es := by
  rw [Countdown.ticks, ticks, List.countP_map]
  refine List.countP_congr fun e _ => ?_
  obtain ⟨op, cs⟩ := e
  cases op <;> simp [countdownEvent, Countdown.Event.isTick]

theorem adds_countdown : (es.map countdownEvent).all (fun e => !e.adds p) = true ↔
    ∀ e ∈ es, ∀ t f u, e.1 ≠ .addTimer p t f u := by
  rw [List.all_map, List.all_eq_true]
  refine forall₂_congr fun e _ => ?_
  obtain ⟨op, cs⟩ := e
  cases op with
  | addTimer q t f u =>
    by_cases hpq : p = q
    · simp [countdownEvent, Countdown.Event.adds, hpq]
    · simp [countdownEvent, Countdown.Event.adds, hpq, Ne.symm hpq]
  | delTimer q => simp [countdownEvent, Countdown.Event.adds]
  | tick => simp [countdownEvent, Countdown.Event.adds]

theorem dels_countdown : (es.map countdownEvent).any (fun e => e.dels p) = false ↔
    ∀ e ∈ es, e.1 ≠ .delTimer p := by
  rw [List.any_map, List.any_eq_false]
  refine forall₂_congr fun e _ => ?_
  obtain ⟨op, cs⟩ := e
  cases op with
  | addTimer q t f u => simp [countdownEvent, Countdown.Event.dels]
  | delTimer q =>
    by_cases hpq : p = q
    · simp [countdownEvent, Countdown.Event.dels, hpq]
    · simp [countdownEvent, Countdown.Event.dels, hpq, Ne.symm hpq]
  | tick => simp [countdownEvent, Countdown.Event.dels]

theorem Call.fired_injective : Function.Injective Call.fired := by
  rintro ⟨p, f, u⟩ ⟨p', f', u'⟩ h
  simp only [Call.fired, Prod.mk.injEq] at h
  obtain ⟨rfl, rfl, rfl⟩ := h
  rfl

variable {timeout : Int} {f : Nat} {u : Option Ptr} {cs₀ cs : List Call}

theorem ticksOf_toNat (ht : 0 ≤ timeout) : ((ticksOf timeout).toNat : Int) = max 1 (timeout / SI) := by
  rw [ticksOf_eq ht, Int.toNat_of_nonneg (by omega)]

/-- A tick calls back the timer that a run began with exactly if it has not been deleted
    and all its ticks have passed. -/
theorem Inv.fired_iff (h : ∃ ls, Inv w ls)
    (hrun : Run Step w ((.addTimer p timeout f u, cs₀) :: (mid ++ [(.tick, cs)])) w')
    (hadd : ∀ e ∈ mid, ∀ t f u, e.1 ≠ .addTimer p t f u) :
    cs.filter (fun c => c.timer = p) =
      if (∀ e ∈ mid, e.1 ≠ .delTimer p) ∧ (ticks mid : Int) = max 1 (timeout / SI)
      then [⟨p, f, u⟩] else [] := by
  obtain ⟨w₁, hstep, -⟩ := Run.cons_iff.mp hrun
  have ht : 0 ≤ timeout := hstep.1.2
  obtain ⟨hcd, -⟩ := run_countdown hrun h
  rw [List.map_cons, List.map_append] at hcd
  have hfired := Countdown.fired_iff hcd (adds_countdown.mpr hadd)
  rw [List.filter_map] at hfired
  have hk : Countdown.ticks (mid.map countdownEvent) = (ticksOf timeout).toNat ↔
      (ticks mid : Int) = max 1 (timeout / SI) := by
    rw [ticks_countdown, ← ticksOf_toNat ht, Int.natCast_inj]
  apply List.map_injective_iff.mpr Call.fired_injective
  rw [apply_ite (List.map Call.fired)]
  exact hfired.trans (if_congr (and_congr dels_countdown hk) rfl rfl)

/-- Its name is not given to another timer before it has fired or is deleted. -/
theorem Inv.not_added (h : ∃ ls, Inv w ls)
    (hrun : Run Step w ((.addTimer p timeout f u, cs₀) :: mid) w')
    (hdel : ∀ e ∈ mid, e.1 ≠ .delTimer p) (hk : (ticks mid : Int) ≤ max 1 (timeout / SI)) :
    ∀ e ∈ mid, ∀ t f u, e.1 ≠ .addTimer p t f u := by
  obtain ⟨w₁, hstep, hmid⟩ := Run.cons_iff.mp hrun
  have ht : 0 ≤ timeout := hstep.1.2
  obtain ⟨hcd, h₁⟩ := Inv.step h hstep
  obtain ⟨hmid, -⟩ := run_countdown hmid h₁
  have hpend := (Countdown.Step.effect hcd p).trans (if_pos rfl)
  refine adds_countdown.mp (Countdown.not_added hmid hpend (dels_countdown.mpr hdel) ?_)
  rw [ticks_countdown]
  rw [← ticksOf_toNat ht] at hk
  exact Int.ofNat_le.mp hk

/-- What a run says about each timer added in it. A tick calls it back, once, exactly if
    it has not been deleted and `max 1 (timeout / SI)` ticks have passed since. Its name
    stands for it until it is given to a new one, which does not happen before then. -/
structure FiresOnTime (es : List Event) : Prop where
  calls : ∀ pre mid post p timeout f u cs₀ cs,
    es = pre ++ (.addTimer p timeout f u, cs₀) :: (mid ++ (.tick, cs) :: post) →
    (∀ e ∈ mid, ∀ t f u, e.1 ≠ .addTimer p t f u) →
    cs.filter (fun c => c.timer = p) =
      if (∀ e ∈ mid, e.1 ≠ .delTimer p) ∧ (ticks mid : Int) = max 1 (timeout / SI)
      then [⟨p, f, u⟩] else []
  name : ∀ pre mid post p timeout f u cs₀,
    es = pre ++ (.addTimer p timeout f u, cs₀) :: (mid ++ post) →
    (∀ e ∈ mid, e.1 ≠ .delTimer p) → (ticks mid : Int) ≤ max 1 (timeout / SI) →
    ∀ e ∈ mid, ∀ t f u, e.1 ≠ .addTimer p t f u

/-- Every run of the wheel fires on time, and the next legal call returns. -/
theorem fires_on_time (hrun : Run Step init es w) :
    FiresOnTime es ∧ ∀ op, Legal w op → ∃ cs w', Step w (op, cs) w' := by
  refine ⟨⟨?_, ?_⟩, ?_⟩
  · rintro pre mid post p timeout f u cs₀ cs rfl hadd
    obtain ⟨w₁, hpre, hrun⟩ := Run.append_iff.mp hrun
    rw [List.append_cons mid, ← List.cons_append] at hrun
    obtain ⟨w₂, hrun, -⟩ := Run.append_iff.mp hrun
    exact Inv.fired_iff (run_countdown hpre ⟨_, init_inv⟩).2 hrun hadd
  · rintro pre mid post p timeout f u cs₀ rfl hdel hk
    obtain ⟨w₁, hpre, hrun⟩ := Run.append_iff.mp hrun
    rw [← List.cons_append] at hrun
    obtain ⟨w₂, hrun, -⟩ := Run.append_iff.mp hrun
    exact Inv.not_added (run_countdown hpre ⟨_, init_inv⟩).2 hrun hdel hk
  · intro op hlegal
    obtain ⟨ls, hinv⟩ := (run_countdown hrun ⟨_, init_inv⟩).2
    obtain ⟨w', -, cs, hstep, -, -⟩ := hinv.exec hlegal
    exact ⟨cs, w', hstep⟩

theorem Step.of_exec (op : Op) (hlegal : Legal w op) (k : Nat)
    (h : ∀ n, TimeWheel.exec (n + k) w op = .ok (w', cs)) : Step w (op, cs) w' := by
  refine ⟨hlegal, k, fun n hn => ?_⟩
  rw [← Nat.sub_add_cancel hn]
  exact h _

/-- Ticks that find no timer. -/
theorem idle_run (w : TimeWheel) (hc : 0 ≤ w.curSlot ∧ w.curSlot < N) (n : Nat)
    (hslots : ∀ k < n, w.slots ((w.curSlot + k) % N) = none) :
    Run Step w (List.replicate n (.tick, [])) { w with curSlot := (w.curSlot + n) % N } := by
  induction n with
  | zero =>
    rw [Int.natCast_zero, Int.add_zero, Int.emod_eq_of_lt hc.1 hc.2]
    exact Run.nil w
  | succ n ih =>
    rw [List.replicate_succ', Run.append_iff]
    refine ⟨_, ih fun k hk => hslots k (Nat.lt_succ_of_lt hk), Run.cons (Step.of_exec .tick trivial 1 fun m => ?_) (Run.nil _)⟩
    have hslot := hslots n (Nat.lt_succ_self n)
    have hn : 0 ≤ (w.curSlot + n) % N ∧ (w.curSlot + n) % N < N := ⟨Int.emod_nonneg _ (by decide), Int.emod_lt_of_pos _ (by decide)⟩
    have hnext : ((w.curSlot + n) % N + 1).tmod N = (w.curSlot + (n + 1 : Nat)) % N := by
      rw [(next_spec hn).1, Int.emod_add_emod]
      push_cast
      rw [Int.add_assoc]
    simp [TimeWheel.exec, TimeWheel.tick, slot, hn, hslot, tickLoop, hnext]

/-- Two timers that share slot 0, with one round to wait and with two, and all the ticks up to
    the callback of the second. -/
def rounds : List Event :=
  (.addTimer 8 60 3 none, []) :: (.addTimer 16 120 4 none, []) :: (.tick, []) ::
    (List.replicate 59 (.tick, []) ++ (.tick, [⟨8, 3, none⟩]) ::
      (List.replicate 59 (.tick, []) ++ [(.tick, [⟨16, 4, none⟩])]))

theorem rounds_run : ∃ w, Run Step init rounds w := by
  apply Exists.intro
  apply Run.cons (Step.of_exec (.addTimer 8 60 3 none) ⟨rfl, by decide⟩ 0 fun _ => rfl)
  apply Run.cons (Step.of_exec (.addTimer 16 120 4 none) ⟨rfl, by decide⟩ 0 fun _ => rfl)
  apply Run.cons (Step.of_exec .tick trivial 3 fun _ => rfl)
  apply Run.append_iff.mpr
  refine ⟨_, idle_run _ ⟨by decide, by decide⟩ 59 (by decide), ?_⟩
  apply Run.cons (Step.of_exec .tick trivial 3 fun _ => rfl)
  apply Run.append_iff.mpr
  refine ⟨_, idle_run _ ⟨by decide, by decide⟩ 59 (by decide), ?_⟩
  exact Run.cons (Step.of_exec .tick trivial 3 fun _ => rfl) (Run.nil _)

theorem fires_on_time_rounds : ∃ w, Run Step init rounds w ∧ FiresOnTime rounds ∧
    ∀ op, Legal w op → ∃ cs w', Step w (op, cs) w' := by
  obtain ⟨w, hrun⟩ := rounds_run
  exact ⟨w, hrun, fires_on_time hrun⟩

end TimeWheel

end Timers
