-- SUMMARY: The lists of the timer wheel in every run of a client: links in both directions, slots, and the timers that are in them.
import LinuxLearning.Timers.WheelCountdown

/-!
# The lists of the timer wheel

A client adds timers, sets their callbacks, deletes timers that are pending, and lets the
wheel tick. What it has done so far says which timers are pending, and these are the nodes
of the slots.
-/

namespace Timers

open Memory DoublyLinked Transition

namespace TimeWheel

variable {w w' : TimeWheel} {ls : Int → List Entry} {pre post : List Entry} {p q : Ptr} {i j : Int}

-- ---------------------------------------------------------------------------
-- Lists
-- ---------------------------------------------------------------------------

/-- Slot `i` is null or leads to a list with the nodes `ps`: `next` and `prev` of each node
    are its neighbours, null at the ends. -/
structure IsList (w : TimeWheel) (i : Int) (ps : List Ptr) : Prop where
  head : w.slots i = ps[0]?
  nodup : ps.Nodup
  nodes : ∀ k p, ps[k]? = some p → ∃ v, w.store p = some v ∧ v.next = ps[k + 1]? ∧
    v.prev = (if k = 0 then none else ps[k - 1]?) ∧ v.val.timeSlot = i ∧ 0 ≤ v.val.rotation

/-- Every slot of the wheel is a list, no node is in two of them, and their nodes are the
    timers `pending`, which are all that is live. -/
structure WellLinked (w : TimeWheel) (pending : Finset Ptr) : Prop where
  cur : 0 ≤ w.curSlot ∧ w.curSlot < N
  lists : ∃ ls : Int → List Ptr, (∀ i, 0 ≤ i → i < N → IsList w i (ls i)) ∧
    (∀ i j p, p ∈ ls i → p ∈ ls j → i = j) ∧
    ∀ p, p ∈ pending ↔ ∃ i, 0 ≤ i ∧ i < N ∧ p ∈ ls i
  live : ∀ p, p ∈ pending ↔ (w.store p).isSome

theorem Inv.isList (h : Inv w ls) (i : Int) : IsList w i (addrs (ls i)) where
  head := by rw [(h.holds i).head, first_eq_getElem?]
  nodup := (h.holds i).nodup
  nodes k p hk := by
    obtain ⟨v, hv, hnext, hprev⟩ := (h.holds i).seg.getElem hk
    obtain ⟨d, hd⟩ := exists_mem (List.mem_of_getElem? hk)
    obtain ⟨v', hv', rfl⟩ := (h.holds i).seg.get hd
    obtain rfl := Option.some.inj (hv.symm.trans hv')
    have hplaced := h.placed i _ hd
    exact ⟨v, hv, hnext, hprev, hplaced.slot, hplaced.rotation⟩

/-- The live nodes are those of the slots. -/
theorem Inv.isSome_iff_slot (h : Inv w ls) (p : Ptr) :
    (w.store p).isSome ↔ ∃ i, 0 ≤ i ∧ i < N ∧ p ∈ addrs (ls i) := by
  rw [h.isSome_iff]
  refine exists_congr fun i => ⟨fun hp => ?_, fun hp => hp.2.2⟩
  obtain ⟨d, hd⟩ := exists_mem hp
  obtain ⟨hlo, hhi⟩ := h.range i (List.ne_nil_of_mem hd)
  exact ⟨hlo, hhi, hp⟩

theorem Inv.wellLinked (h : Inv w ls) {pending : Finset Ptr}
    (hpending : ∀ p, p ∈ pending ↔ (w.store p).isSome) : WellLinked w pending where
  cur := h.cur
  lists := ⟨fun i => addrs (ls i), fun i _ _ => h.isList i, fun _ _ _ => h.disjoint,
    fun p => (hpending p).trans (h.isSome_iff_slot p)⟩
  live := hpending

/-- A live node is a countdown timer. -/
theorem Inv.isSome_pending (h : Inv w ls) (q : Ptr) : (pending w q).isSome = (w.store q).isSome := by
  rcases h.pending_cases q with ⟨hnone, hno⟩ | ⟨i, d, f, hd, -, -, hsome⟩
  · rw [hnone]
    cases hv : w.store q with
    | none => rfl
    | some v => exact absurd (h.live q v hv) (hno _)
  · obtain ⟨v, hv⟩ := (h.holds i).seg.live (mem_addrs hd)
    rw [hsome, hv]
    rfl

-- ---------------------------------------------------------------------------
-- The walk of tick
-- ---------------------------------------------------------------------------

/-- Whatever the timers before and behind it, the walk goes on from a node to a node that is
    still live, until its fuel ends. -/
theorem tickLoop_safe (n : Nat) (hc : 0 ≤ w.curSlot ∧ w.curSlot < N)
    (h : Holds w w.curSlot (pre ++ post)) (hcb : ∀ e ∈ post, e.2.cbFunc ≠ none) :
    Within (· = .outOfFuel) (tickLoop idle n w (first post none)) fun _ => True := by
  induction n generalizing w pre post with
  | zero => rfl
  | succ n ih =>
    cases post with
    | nil => trivial
    | cons e post =>
      obtain ⟨p, d⟩ := e
      rw [List.forall_mem_cons] at hcb
      by_cases hr : 0 < d.rotation
      · obtain ⟨w₁, hrun, h₁, hf⟩ := tickLoop_wait idle h hr
        rw [← hf.cur] at hc h₁
        rw [List.append_cons] at h₁
        rw [first_cons, hrun]
        exact ih hc h₁ hcb.2
      · obtain ⟨f, hf⟩ := Option.ne_none_iff_exists'.mp hcb.1
        obtain ⟨w₁, hrun, h₁, -, hframe⟩ := tickLoop_due hc h hr hf
        rw [← hframe.cur] at hc h₁
        rw [first_cons, hrun]
        exact (ih hc h₁ hcb.2).bind fun _ _ => trivial

theorem Inv.tick_safe (h : Inv w ls) (n : Nat) :
    Within (· = .outOfFuel) (TimeWheel.tick idle n w) fun _ => True := by
  have hloop := tickLoop_safe n h.cur (show Holds w w.curSlot ([] ++ ls w.curSlot) from h.holds w.curSlot)
    fun e he => (h.placed _ e he).callback
  rw [TimeWheel.tick, slot_ok h.cur, (h.holds _).head]
  exact hloop.bind fun _ _ => trivial

-- ---------------------------------------------------------------------------
-- The operations of a client
-- ---------------------------------------------------------------------------

namespace Client

/-- What a client does with the wheel. It sets the callback of a timer as it gets it, and may
    set another one as long as the timer is pending. -/
inductive Op where
  | addTimer (p : Ptr) (timeout : Int) (cbFunc : Nat) (userData : Option Ptr)
  | setCallback (timer : Ptr) (cbFunc : Nat) (userData : Option Ptr)
  | delTimer (timer : Option Ptr)
  | tick
deriving Repr, DecidableEq

/-- An operation, and the calls made in it. -/
abbrev Event := Op × List Call

/-- `new` gives an unused address, and a timer that is deleted or gets another callback is
    pending. -/
def Legal (w : TimeWheel) : Op → Prop
  | .addTimer p timeout _ _ => 0 ≤ timeout → w.store p = none
  | .setCallback p _ _ => (w.store p).isSome
  | .delTimer timer => ∀ p, timer = some p → (w.store p).isSome
  | .tick => True

/-- `timer->cb_func = f` and `timer->user_data = u`. -/
def setCallback (w : TimeWheel) (timer : Option Ptr) (f : Nat) (u : Option Ptr) :
    Except Fault TimeWheel := do
  let s ← modify w.store timer fun v => { v with val := { v.val with cbFunc := some f, userData := u } }
  return { w with store := s }

/-- One operation, with fuel for the loop of `tick`, and the calls it makes. No callback
    touches the wheel. -/
def exec (n : Nat) (w : TimeWheel) : Op → Except Fault (TimeWheel × List Call)
  | .addTimer p timeout f u => do
    let (w, timer) ← addTimer w p timeout
    if timer = none then return (w, [])
    else return (← setCallback w timer f u, [])
  | .setCallback p f u => do return (← setCallback w (some p) f u, [])
  | .delTimer timer => do return (← delTimer w timer, [])
  | .tick => tick idle n w

/-- A legal operation returns with any fuel from some amount on. -/
def Step (w : TimeWheel) (e : Event) (w' : TimeWheel) : Prop :=
  Legal w e.1 ∧ Yields (fun n => exec n w e.1) (w', e.2)

/-- What an operation does to the timers that are pending. -/
def after (timers : Finset Ptr) : Event → Finset Ptr
  | (.addTimer p timeout _ _, _) => if 0 ≤ timeout then insert p timers else timers
  | (.setCallback _ _ _, _) => timers
  | (.delTimer none, _) => timers
  | (.delTimer (some p), _) => timers.erase p
  | (.tick, cs) => timers \ (cs.map Call.timer).toFinset

/-- The timers added and neither deleted nor fired. -/
def outstanding (es : List Event) : Finset Ptr :=
  es.foldl after ∅

variable {timers : Finset Ptr} {f : Nat} {u : Option Ptr} {timeout : Int} {timer : Option Ptr}

/-- A timer with a timeout that is not negative is added as the countdown needs it. -/
theorem exec_addTimer (h : Inv w ls) (hp : w.store p = none) (ht : 0 ≤ timeout) (n : Nat) :
    exec n w (.addTimer p timeout f u) = TimeWheel.exec n w (.addTimer p timeout f u) := by
  obtain ⟨-, hts, -⟩ := newTimer_spec ht h.cur
  obtain ⟨w₁, hadd, -⟩ := addTimer_ok (h.holds _) (h.fresh hp _) ht rfl hts
  simp [exec, setCallback, TimeWheel.exec, hadd]

/-- The client writes to a timer, and nothing else changes. -/
theorem setCallback_ok (h : Inv w ls) (hlive : (w.store p).isSome) (f : Nat) (u : Option Ptr) :
    ∃ w' ls', setCallback w (some p) f u = .ok w' ∧ Inv w' ls' ∧
      ∀ q, (w'.store q).isSome = (w.store q).isSome := by
  obtain ⟨i, pre, d, post, hls, hplaced, -⟩ := h.split hlive
  have hholds := hls ▸ h.holds i
  have hp := (seg_split.mp hholds.seg).2.1
  obtain ⟨hholds', hframe⟩ := hholds.setVal { d with cbFunc := some f, userData := u }
  have hplaced' : Placed i { d with cbFunc := some f, userData := u } :=
    ⟨hplaced.slot, hplaced.rotation, Option.some_ne_none f⟩
  have hinv := h.setVal hls hplaced' hholds' hframe
  refine ⟨_, _, by simp [setCallback, hp], hinv, fun q => ?_⟩
  by_cases hqp : q = p
  · subst hqp
    simp [hp]
  · rw [hframe.store q (by simpa using hqp)]

/-- A legal operation returns, keeps the invariant, and does to the timers that are pending
    what it says. -/
theorem exec_ok (h : Inv w ls) {op : Op} (hlegal : Legal w op) :
    ∃ w' ls' cs, Step w (op, cs) w' ∧ Inv w' ls' ∧
      ∀ timers, (∀ q, q ∈ timers ↔ (w.store q).isSome) →
        ∀ q, q ∈ after timers (op, cs) ↔ (w'.store q).isSome := by
  cases op with
  | addTimer p timeout f u =>
    by_cases ht : 0 ≤ timeout
    · have hp := hlegal ht
      obtain ⟨w', ls', hrun, hinv, hcd⟩ := h.addTimer ⟨hp, ht⟩ f u
      refine ⟨w', ls', [], ⟨hlegal, 0, fun n _ => ?_⟩, hinv, fun timers hmem q => ?_⟩
      · exact (exec_addTimer h hp ht n).trans (hrun n)
      · rw [after, if_pos ht, Finset.mem_insert, hmem, ← hinv.isSome_pending, hcd.isSome_add,
          h.isSome_pending]
    · refine ⟨w, ls, [], ⟨hlegal, 0, fun n _ => ?_⟩, h, fun timers hmem q => ?_⟩
      · simp [exec, TimeWheel.addTimer, Int.not_le.mp ht]
      · rw [after, if_neg ht, hmem]
  | setCallback p f u =>
    obtain ⟨w', ls', hrun, hinv, hlive⟩ := setCallback_ok h hlegal f u
    refine ⟨w', ls', [], ⟨hlegal, 0, fun n _ => by simp [exec, hrun]⟩, hinv, fun timers hmem q => ?_⟩
    rw [after, hmem, hlive]
  | delTimer timer =>
    cases timer with
    | none =>
      refine ⟨w, ls, [], ⟨hlegal, 0, fun n _ => ?_⟩, h, fun timers hmem q => ?_⟩
      · simp [exec, TimeWheel.delTimer]
      · rw [after, hmem]
    | some p =>
      obtain ⟨w', ls', hrun, hinv, hcd⟩ := h.delTimer (hlegal p rfl)
      refine ⟨w', ls', [], ⟨hlegal, 0, fun n _ => hrun n⟩, hinv, fun timers hmem q => ?_⟩
      rw [after, Finset.mem_erase, hmem, ← hinv.isSome_pending, hcd.isSome_del, h.isSome_pending]
  | tick =>
    obtain ⟨w', ls', cs, hrun, hinv, hcd⟩ := h.tick
    refine ⟨w', ls', cs, ⟨hlegal, hrun⟩, hinv, fun timers hmem q => ?_⟩
    rw [after, Finset.mem_sdiff, hmem, ← hinv.isSome_pending, hcd.isSome_tick, h.isSome_pending,
      List.map_map, List.mem_toFinset]
    rfl

theorem Step.unique {op : Op} {cs cs' : List Call} {w₁ w₂ : TimeWheel} (h₁ : Step w (op, cs) w₁)
    (h₂ : Step w (op, cs') w₂) : cs = cs' ∧ w₁ = w₂ := by
  have h := Yields.unique h₁.2 h₂.2
  rw [Prod.mk.injEq] at h
  exact ⟨h.2, h.1⟩

theorem Step.inv {e : Event} (hstep : Step w e w') (h : ∃ ls, Inv w ls)
    (hmem : ∀ q, q ∈ timers ↔ (w.store q).isSome) :
    (∃ ls, Inv w' ls) ∧ ∀ q, q ∈ after timers e ↔ (w'.store q).isSome := by
  obtain ⟨ls, h⟩ := h
  obtain ⟨op, cs⟩ := e
  obtain ⟨w₁, ls₁, cs₁, hstep₁, hinv, hafter⟩ := exec_ok h hstep.1
  obtain ⟨rfl, rfl⟩ := hstep.unique hstep₁
  exact ⟨⟨ls₁, hinv⟩, hafter timers hmem⟩

/-- The live nodes of a run are the timers that are outstanding. -/
theorem run_inv {es : List Event} (hrun : Run Step init es w) :
    (∃ ls, Inv w ls) ∧ ∀ q, q ∈ outstanding es ↔ (w.store q).isSome := by
  refine Run.history (I := fun es w => (∃ ls, Inv w ls) ∧ ∀ q, q ∈ outstanding es ↔ (w.store q).isSome)
    (fun es w e w' h hstep => ?_) hrun ⟨⟨_, init_inv⟩, fun q => by simp [outstanding, init]⟩
  rw [outstanding, List.foldl_append]
  exact hstep.inv h.1 h.2

/-- Only `tick` has a loop. -/
theorem exec_fuel {op : Op} (hop : op ≠ .tick) (n k : Nat) : exec n w op = exec k w op := by
  cases op with
  | addTimer p timeout f u => rfl
  | setCallback p f u => rfl
  | delTimer timer => rfl
  | tick => exact absurd rfl hop

/-- No operation follows a null or dangling pointer or leaves the array of slots: the fuel of
    the walk is all it can lack. -/
theorem exec_safe (h : Inv w ls) {op : Op} (hlegal : Legal w op) (n : Nat) :
    Within (· = .outOfFuel) (exec n w op) fun _ => True := by
  by_cases hop : op = .tick
  · subst hop
    exact h.tick_safe n
  · obtain ⟨w', -, cs, ⟨-, k, hrun⟩, -⟩ := exec_ok h hlegal
    have hk : exec k w op = .ok (w', cs) := hrun k (Nat.le_refl k)
    rw [exec_fuel hop n k, hk]
    trivial

/-- After every run the slots are lists in both directions whose nodes are the timers
    outstanding. The next operation returns, and follows no pointer to a node that is freed. -/
theorem run_wellLinked {es : List Event} (hrun : Run Step init es w) :
    WellLinked w (outstanding es) ∧
    ∀ op, Legal w op → (∃ cs w', Step w (op, cs) w') ∧
      ∀ n e, exec n w op = .error e → e = .outOfFuel := by
  obtain ⟨⟨ls, hinv⟩, hmem⟩ := run_inv hrun
  refine ⟨hinv.wellLinked hmem, fun op hlegal => ⟨?_, fun n e he => ?_⟩⟩
  · obtain ⟨w', -, cs, hstep, -⟩ := exec_ok hinv hlegal
    exact ⟨cs, w', hstep⟩
  · have hsafe := exec_safe hinv hlegal n
    rwa [he] at hsafe

theorem Step.of_exec {cs : List Call} (op : Op) (hlegal : Legal w op) (k : Nat)
    (h : ∀ n, exec (n + k) w op = .ok (w', cs)) : Step w (op, cs) w' :=
  ⟨hlegal, Yields.of_add k h⟩

/-- Three timers get into slot 1. The tick there fires the one in the middle, and then the
    head is deleted. -/
def middleFires : List Event :=
  [(.addTimer 8 61 3 none, []), (.addTimer 9 1 3 none, []), (.addTimer 7 61 3 none, []),
    (.setCallback 9 4 (some 5), []), (.tick, []), (.tick, [⟨9, 4, some 5⟩]), (.delTimer (some 7), [])]

theorem middleFires_run : ∃ w, Run Step init middleFires w := by
  apply Exists.intro
  apply Run.cons (Step.of_exec (.addTimer 8 61 3 none) (fun _ => rfl) 0 fun _ => rfl)
  apply Run.cons (Step.of_exec (.addTimer 9 1 3 none) (fun _ => rfl) 0 fun _ => rfl)
  apply Run.cons (Step.of_exec (.addTimer 7 61 3 none) (fun _ => rfl) 0 fun _ => rfl)
  apply Run.cons (Step.of_exec (.setCallback 9 4 (some 5)) (by rfl) 0 fun _ => rfl)
  apply Run.cons (Step.of_exec .tick trivial 1 fun _ => rfl)
  apply Run.cons (Step.of_exec .tick trivial 4 fun _ => rfl)
  exact Run.cons (Step.of_exec (.delTimer (some 7)) (by rintro p ⟨⟩; rfl) 0 fun _ => rfl) (Run.nil _)

theorem run_wellLinked_middleFires : ∃ w, Run Step init middleFires w ∧
    (WellLinked w (outstanding middleFires) ∧
      ∀ op, Legal w op → (∃ cs w', Step w (op, cs) w') ∧
        ∀ n e, exec n w op = .error e → e = .outOfFuel) ∧
    outstanding middleFires = {8} := by
  obtain ⟨w, hrun⟩ := middleFires_run
  exact ⟨w, hrun, run_wellLinked hrun, by decide⟩

end Client

end TimeWheel

end Timers
