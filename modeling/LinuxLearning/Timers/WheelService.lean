-- SUMMARY: The timer wheel as an alarm service whose time is the number of ticks, and its agreement with the timer list.
import LinuxLearning.Timers.CountdownAlarms
import LinuxLearning.Timers.ListService
import LinuxLearning.Timers.WheelLists

/-!
# The timer wheel as a service

The wheel has no clock: its users say how long to wait, and it counts ticks. If the time is the
number of ticks so far, it does for them what the list and the heap do.
-/

namespace Timers

open Memory Transition Alarms

namespace TimeWheel

/-- The wheel, the timer of each user that has one, and the number of ticks so far. -/
structure UserClient where
  wheel : TimeWheel
  timer : User → Option Ptr
  now : Int

namespace UserClient

def init : UserClient :=
  ⟨TimeWheel.init, fun _ => none, 0⟩

def alarms (c : UserClient) : Alarms.State User Nat :=
  Countdown.alarms c.now c.timer (pending c.wheel)

/-- A timer that is due at `e`, with the callback that the client sets. `new` answers with `p`. -/
def add (p : Ptr) (u : User) (e : Int) (f : Option Nat) (c : UserClient) :
    Except Fault (UserClient × List (User × Nat)) := do
  let (w, timer) ← addTimer c.wheel p ((e - c.now) * SI)
  let s ← modify w.store timer fun v => { v with val := { v.val with cbFunc := f, userData := u } }
  return (⟨{ w with store := s }, Function.update c.timer u timer, c.now⟩, [])

/-- What the client does for a request, and the calls that are made. To put a timer off, it
    deletes the timer and adds another one. -/
def exec (n : Nat) (p : Ptr) (c : UserClient) : Request User Nat → Except Fault (UserClient × List (User × Nat))
  | .start u e f => c.add p u e (some f)
  | .restart u e => do
    let t ← deref c.wheel.store (c.timer u)
    let w ← delTimer c.wheel (c.timer u)
    { c with wheel := w, timer := Function.update c.timer u none }.add p u e t.val.cbFunc
  | .stop u => do
    let w ← delTimer c.wheel (c.timer u)
    return ({ c with wheel := w, timer := Function.update c.timer u none }, [])
  | .tick _ => do
    let (w, cs) ← tick idle n c.wheel
    let calls := cs.map fun call => (call.userData, call.cbFunc)
    return (⟨w, forget calls c.timer, c.now + 1⟩, calls)

/-- Timers are due behind the tick to come, which is the next one. -/
def Timely (now : Int) : Request User Nat → Prop
  | .start _ e _ => now < e
  | .restart _ e => now < e
  | .stop _ => True
  | .tick cur => cur = now

/-- A timely request that the service allows, with an unused address from `new`. -/
def Step (c : UserClient) (e : Alarms.Event User Nat) (c' : UserClient) : Prop :=
  e.1.Allowed c.alarms ∧ Timely c.now e.1 ∧
    ∃ p, c.wheel.store p = none ∧ Yields (fun n => exec n p c e.1) (c', e.2)

variable {c c' : UserClient} {ls : Int → List Entry} {w w' : TimeWheel} {p : Ptr} {u : User} {e e' : Int} {f : Nat}

/-- The wheel is consistent, and each user has the timer that it knows of. -/
structure Inv (c : UserClient) (ls : Int → List Entry) : Prop where
  wheel : TimeWheel.Inv c.wheel ls
  owned : Countdown.Owned c.timer (pending c.wheel)

theorem init_inv : Inv init fun _ => [] :=
  ⟨TimeWheel.init_inv, fun _ _ => by simp [init, TimeWheel.init, pending]⟩

/-- The timer that is added is the one that `new` made. -/
theorem addTimer_address {timeout : Int} (ht : 0 ≤ timeout) :
    Ensures (addTimer w p timeout) fun r => r.2 = some p := by
  unfold addTimer
  rw [if_neg (not_lt.mpr ht)]
  refine .bind_any fun x => .ite (.bind_any fun w' => .pure rfl) ?_
  exact .bind_any fun x => .bind_any fun s => .bind_any fun y => .bind_any fun s => .bind_any fun w' => .pure rfl

theorem add_ok (ht : 0 ≤ (e - c.now) * SI)
    (hrun : TimeWheel.exec 0 c.wheel (.addTimer p ((e - c.now) * SI) f u) = .ok (w', [])) :
    c.add p u e (some f) = .ok (⟨w', Function.update c.timer u (some p), c.now⟩, []) := by
  unfold add
  simp only [TimeWheel.exec] at hrun
  cases hadd : addTimer c.wheel p ((e - c.now) * SI) with
  | error _ =>
    rw [hadd] at hrun
    cases hrun
  | ok r =>
    obtain ⟨w₁, timer⟩ := r
    obtain rfl : timer = some p := addTimer_address ht _ hadd
    rw [hadd, ok_bind] at hrun
    rw [ok_bind]
    cases hset : modify w₁.store (some p) fun v => { v with val := { v.val with cbFunc := some f, userData := u } } with
    | error _ =>
      simp only [hset] at hrun
      cases hrun
    | ok s =>
      simp only [hset, ok_bind] at hrun ⊢
      cases hrun
      rfl

theorem delTimer_of_exec (hrun : TimeWheel.exec 0 w (.delTimer p) = .ok (w', [])) :
    delTimer w (some p) = .ok w' := by
  simp only [TimeWheel.exec] at hrun
  cases hdel : delTimer w (some p) with
  | error _ =>
    rw [hdel] at hrun
    cases hrun
  | ok w₁ =>
    rw [hdel] at hrun
    cases hrun
    rfl

theorem Inv.add (h : Inv c ls) (hu : c.alarms u = none) (hp : c.wheel.store p = none) (hlt : c.now < e) (f : Nat) :
    ∃ c' ls', c.add p u e (some f) = .ok (c', []) ∧ Inv c' ls' ∧
      c'.alarms = Function.update c.alarms u (some (e, f)) := by
  have ht : 0 ≤ (e - c.now) * SI := Int.mul_nonneg (by omega) (by decide)
  obtain ⟨w', ls', hrun, hinv, hstep⟩ := h.wheel.addTimer ⟨hp, ht⟩ f u
  obtain ⟨k, hticks⟩ : ∃ k, (ticksOf ((e - c.now) * SI)).toNat = k := ⟨_, rfl⟩
  have hk : c.now + (k : Int) = e := by
    rw [← hticks, ticksOf_toNat ht, Int.mul_ediv_cancel _ (by decide)]
    omega
  rw [hticks] at hstep
  have hnone : pending c.wheel p = none := h.wheel.pending_none (h.wheel.fresh hp)
  have hpend : pending w' = Function.update (pending c.wheel) p (some (k, f, u)) := by
    generalize pending w' = t at hstep
    cases hstep
    rfl
  have hfree : ∀ k d v, pending c.wheel p = some (k, d, v) → v = u := by
    intro k d v hs
    rw [hnone] at hs
    cases hs
  have hno : ∀ q k d, pending c.wheel q = some (k, d, u) → q = p := by
    intro q k d hs
    have halarm : c.alarms u = some (c.now + k, d) := h.owned.alarms_eq.mpr ⟨q, k, hs, rfl⟩
    rw [hu] at halarm
    cases halarm
  refine ⟨_, ls', add_ok ht (hrun 0), ⟨hinv, ?_⟩, ?_⟩
  · show Countdown.Owned _ (pending w')
    rw [hpend]
    exact h.owned.update hfree hno (some (k, f))
  · show Countdown.alarms _ _ (pending w') = _
    rw [hpend]
    rw [← hk]
    exact h.owned.alarms_update hfree hno (some (k, f))

theorem Inv.del (h : Inv c ls) (hu : c.alarms u = some (e, f)) :
    ∃ v w' ls', deref c.wheel.store (c.timer u) = .ok v ∧ v.val.cbFunc = some f ∧
      delTimer c.wheel (c.timer u) = .ok w' ∧ Inv ⟨w', Function.update c.timer u none, c.now⟩ ls' ∧
      alarms ⟨w', Function.update c.timer u none, c.now⟩ = Function.update c.alarms u none ∧
      ∀ p, c.wheel.store p = none → w'.store p = none := by
  obtain ⟨q, k, hs, -⟩ := h.owned.alarms_eq.mp hu
  obtain ⟨v, hv, hcount⟩ := Option.bind_eq_some_iff.mp hs
  obtain ⟨g, hg, heq⟩ := Option.map_eq_some_iff.mp hcount
  cases heq
  have hq : c.timer v.val.userData = some q := (h.owned _ q).mpr ⟨_, _, hs⟩
  obtain ⟨w', ls', hrun, hinv, hstep⟩ := h.wheel.delTimer (p := q) (by rw [hv]; rfl)
  have hpend : pending w' = Function.update (pending c.wheel) q none := by
    generalize pending w' = t at hstep
    cases hstep
    rfl
  have hone : ∀ k d u, pending c.wheel q = some (k, d, u) → u = v.val.userData := by
    intro k d u hs'
    cases hs.symm.trans hs'
    rfl
  have hno : ∀ q' k d, pending c.wheel q' = some (k, d, v.val.userData) → q' = q :=
    fun q' k d hs' => h.owned.unique hs' hs
  refine ⟨v, w', ls', ?_, hg, ?_, ⟨hinv, ?_⟩, ?_, fun p hp => ?_⟩
  · rw [hq]
    exact deref_of_live hv
  · rw [hq]
    exact delTimer_of_exec (hrun 0)
  · show Countdown.Owned _ (pending w')
    rw [hpend]
    exact h.owned.update hone hno none
  · show Countdown.alarms _ _ (pending w') = _
    rw [hpend]
    exact h.owned.alarms_update hone hno none
  · have hnone : (pending c.wheel p).isSome = false := by
      rw [h.wheel.isSome_pending, hp]
      rfl
    have hp' : pending w' p = none := by
      rw [hpend, Function.update_apply, Option.isSome_eq_false_iff.mp hnone |> Option.isNone_iff_eq_none.mp]
      exact ite_self none
    have hlive := hinv.isSome_pending p
    rw [hp'] at hlive
    exact Option.isNone_iff_eq_none.mp (Option.isSome_eq_false_iff.mp hlive.symm)

theorem Inv.tick (h : Inv c ls) (p : Ptr) :
    ∃ c' calls ls', Yields (fun n => exec n p c (.tick c.now)) (c', calls) ∧ Inv c' ls' ∧
      Alarms.Step c.alarms (.tick c.now, calls) c'.alarms := by
  obtain ⟨w', ls', cs, ⟨k, hrun⟩, hinv, hstep⟩ := h.wheel.tick
  have hcalls : cs.map (fun call => (call.userData, call.cbFunc)) =
      (cs.map Call.fired).map fun x => (x.2.2, x.2.1) := by
    rw [List.map_map]
    rfl
  have husers : (cs.map fun call => (call.userData, call.cbFunc)).map Prod.fst =
      (cs.map Call.fired).map fun x => x.2.2 := by
    rw [List.map_map, List.map_map]
    rfl
  obtain ⟨timer, htimer⟩ : ∃ timer, timer = forget (cs.map fun call => (call.userData, call.cbFunc)) c.timer := ⟨_, rfl⟩
  have howned : Countdown.Owned timer (pending w') := by
    refine h.owned.tick hstep (fun u hu => ?_) fun u hu => ?_
    · rw [htimer, forget, husers]
      exact if_pos hu
    · rw [htimer, forget, husers]
      exact if_neg hu
  have htick : ∀ n, k ≤ n → TimeWheel.tick idle n c.wheel = .ok (w', cs) := hrun
  refine ⟨⟨w', timer, c.now + 1⟩, cs.map fun call => (call.userData, call.cbFunc), ls',
    ⟨k, fun n hn => ?_⟩, ⟨hinv, howned⟩, trivial, ?_, h.owned.alarms_tick hstep howned⟩
  · simp only [exec, htick n hn, ok_bind, htimer]
    rfl
  · show GoesOff c.alarms c.now _
    rw [hcalls]
    exact h.owned.goesOff hstep

/-- A timely request that is allowed returns, keeps the invariant, and does what it is for. -/
theorem Inv.exec (h : Inv c ls) {r : Request User Nat} (hallowed : r.Allowed c.alarms) (htimely : Timely c.now r)
    (hp : c.wheel.store p = none) :
    ∃ c' calls ls', Yields (fun n => UserClient.exec n p c r) (c', calls) ∧ Inv c' ls' ∧
      Alarms.Step c.alarms (r, calls) c'.alarms := by
  cases r with
  | start u e f =>
    obtain ⟨c', ls', hrun, hinv, halarms⟩ := h.add hallowed hp htimely f
    exact ⟨c', [], ls', ⟨0, fun n _ => hrun⟩, hinv, hallowed, rfl, halarms⟩
  | restart u e =>
    obtain ⟨⟨e₀, f⟩, hu, hle⟩ := hallowed
    obtain ⟨v, w', ls', hderef, hf, hdel, hinv, halarms, hfresh⟩ := h.del hu
    have hnone : alarms ⟨w', Function.update c.timer u none, c.now⟩ u = none := by
      rw [halarms, Function.update_self]
    obtain ⟨c', ls'', hrun, hinv', halarms'⟩ := hinv.add hnone (hfresh p hp) htimely f
    refine ⟨c', [], ls'', ⟨0, fun n _ => ?_⟩, hinv', ⟨(e₀, f), hu, hle⟩, rfl, ?_⟩
    · simp only [UserClient.exec, hderef, hdel, ok_bind, hf]
      exact hrun
    · rw [halarms', halarms, Function.update_idem, Request.next, hu]
      rfl
  | stop u =>
    obtain ⟨⟨e, f⟩, hu⟩ := Option.isSome_iff_exists.mp hallowed
    obtain ⟨v, w', ls', -, -, hdel, hinv, halarms, -⟩ := h.del hu
    refine ⟨⟨w', Function.update c.timer u none, c.now⟩, [], ls', ⟨0, fun n _ => ?_⟩, hinv, hallowed, rfl, halarms⟩
    simp only [UserClient.exec, hdel, ok_bind]
    rfl
  | tick cur =>
    obtain rfl : cur = c.now := htimely
    exact h.tick p

theorem Step.alarms {ev : Alarms.Event User Nat} (hstep : Step c ev c') (h : ∃ ls, Inv c ls) :
    Alarms.Step c.alarms ev c'.alarms ∧ ∃ ls, Inv c' ls := by
  obtain ⟨ls, h⟩ := h
  obtain ⟨hallowed, htimely, p, hp, hrun⟩ := hstep
  obtain ⟨c₁, calls, ls₁, hrun₁, hinv, hstep⟩ := h.exec hallowed htimely hp
  cases hrun.unique hrun₁
  exact ⟨hstep, ls₁, hinv⟩

/-- A run of the users is one of the alarm component. -/
theorem run_alarms {evs : List (Alarms.Event User Nat)} (hrun : Run Step init evs c) :
    Run Alarms.Step (fun _ => none) evs c.alarms ∧ ∃ ls, Inv c ls := by
  have hsim := hrun.simulate UserClient.alarms id (fun _ _ _ h hstep => hstep.alarms h) ⟨_, init_inv⟩
  rwa [List.map_id] at hsim

/-- Every run of the users of the wheel is one of the alarm component whose time is the number of
    ticks, and the next timely request that it allows returns. -/
theorem wheel_serves {evs : List (Alarms.Event User Nat)} {c : UserClient} (hrun : Run Step init evs c) :
    Run Alarms.Step (fun _ => none) evs c.alarms ∧
      ∀ r p, r.Allowed c.alarms → Timely c.now r → c.wheel.store p = none → ∃ calls c', Step c (r, calls) c' := by
  obtain ⟨halarms, ls, hinv⟩ := run_alarms hrun
  refine ⟨halarms, fun r p hallowed htimely hp => ?_⟩
  obtain ⟨c', calls, -, hstep, -, -⟩ := hinv.exec hallowed htimely hp
  exact ⟨calls, c', hallowed, htimely, p, hp, hstep⟩

theorem Step.of_exec (r : Request User Nat) (calls : List (User × Nat)) (p : Ptr) (hallowed : r.Allowed c.alarms)
    (htimely : Timely c.now r) (hp : c.wheel.store p = none) (k : Nat)
    (h : ∀ n, UserClient.exec (n + k) p c r = .ok (c', calls)) : Step c (r, calls) c' :=
  ⟨hallowed, htimely, p, hp, Yields.of_add k h⟩

/-- A user waits for one tick, and another one for a whole round and one tick. -/
def waits : List (Alarms.Event User Nat) :=
  [(.start (some 1) 61 8, []), (.start (some 2) 1 9, []), (.tick 0, []), (.restart (some 1) 62, []),
    (.tick 1, [(some 2, 9)]), (.stop (some 1), [])]

theorem waits_run : ∃ c, Run Step init waits c := by
  apply Exists.intro
  apply Run.cons (Step.of_exec (.start (some 1) 61 8) [] 11 (by rfl) (by show (0 : Int) < 61; decide) (by rfl) 0 fun _ => rfl)
  apply Run.cons (Step.of_exec (.start (some 2) 1 9) [] 12 (by rfl) (by show (0 : Int) < 1; decide) (by rfl) 0 fun _ => rfl)
  apply Run.cons (Step.of_exec (.tick 0) [] 13 trivial (by rfl) (by rfl) 1 fun _ => rfl)
  apply Run.cons (Step.of_exec (.restart (some 1) 62) [] 13 (by exact ⟨(61, 8), rfl, by decide⟩)
    (by show (1 : Int) < 62; decide) (by rfl) 0 fun _ => rfl)
  apply Run.cons (Step.of_exec (.tick 1) [(some 2, 9)] 14 trivial (by rfl) (by rfl) 2 fun _ => rfl)
  apply Run.cons (Step.of_exec (.stop (some 1)) [] 14 (by rfl) trivial (by rfl) 0 fun _ => rfl)
  exact Run.nil _

theorem wheel_serves_waits : ∃ c, Run Step init waits c ∧ Run Alarms.Step (fun _ => none) waits c.alarms ∧
    ∀ r p, r.Allowed c.alarms → Timely c.now r → c.wheel.store p = none → ∃ calls c', Step c (r, calls) c' := by
  obtain ⟨c, hrun⟩ := waits_run
  exact ⟨c, hrun, wheel_serves hrun⟩

/-- The wheel and the list agree: asked for the same, they make the same calls with every tick, and
    the same timers are left. -/
theorem wheel_agrees {evs evs' : List (Alarms.Event User Nat)} {c : UserClient} {l : SortTimerList.Client}
    (hwheel : Run Step init evs c) (hlist : Run SortTimerList.Client.Step SortTimerList.Client.init evs' l)
    (hreq : evs.map Prod.fst = evs'.map Prod.fst) :
    c.alarms = l.alarms ∧ List.Forall₂ (fun e f => List.Perm e.2 f.2) evs evs' := by
  obtain ⟨halarms, -⟩ := run_alarms hwheel
  obtain ⟨halarms', -⟩ := SortTimerList.Client.run_alarms hlist
  exact Alarms.Run.agree halarms halarms' hreq

theorem waits_list : ∃ l, Run SortTimerList.Client.Step SortTimerList.Client.init waits l := by
  apply Exists.intro
  apply Run.cons (SortTimerList.Client.Step.of_exec (.start (some 1) 61 8) [] 11 (by rfl) (by rfl) 1 fun _ => rfl)
  apply Run.cons (SortTimerList.Client.Step.of_exec (.start (some 2) 1 9) [] 12 (by rfl) (by rfl) 2 fun _ => rfl)
  apply Run.cons (SortTimerList.Client.Step.of_exec (.tick 0) [] 13 trivial (by rfl) 1 fun _ => rfl)
  apply Run.cons (SortTimerList.Client.Step.of_exec (.restart (some 1) 62) [] 13
    (by exact ⟨(61, 8), rfl, by decide⟩) (by rfl) 2 fun _ => rfl)
  apply Run.cons (SortTimerList.Client.Step.of_exec (.tick 1) [(some 2, 9)] 13 trivial (by rfl) 3 fun _ => rfl)
  apply Run.cons (SortTimerList.Client.Step.of_exec (.stop (some 1)) [] 13 (by rfl) (by rfl) 0 fun _ => rfl)
  exact Run.nil _

theorem wheel_agrees_waits : ∃ c l, Run Step init waits c ∧
    Run SortTimerList.Client.Step SortTimerList.Client.init waits l ∧ c.alarms = l.alarms ∧
    List.Forall₂ (fun e f => List.Perm e.2 f.2) waits waits := by
  obtain ⟨c, hwheel⟩ := waits_run
  obtain ⟨l, hlist⟩ := waits_list
  exact ⟨c, l, hwheel, hlist, wheel_agrees hwheel hlist rfl⟩

end UserClient

end TimeWheel

end Timers
