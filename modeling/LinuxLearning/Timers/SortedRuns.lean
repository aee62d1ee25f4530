-- SUMMARY: Runs of the timer list: the calls a client may make, the invariant they keep, and what the links say in every state.
import Mathlib.Data.Multiset.AddSub
import LinuxLearning.Timers.SortedList

/-!
# Runs of the timer list

A client allocates timers, adds, adjusts and deletes them, and ticks. After every call
the nodes represent a sorted list of the pending timers (`Inv`), and no call faults.
-/

namespace Timers

open Memory DoublyLinked

namespace SortTimerList

variable {s : Store UtilTimer} {l : SortTimerList} {es pre post : List Entry} {p : Ptr}
  {d : TimerData}

/-- A list in use: the nodes, the object, and the timers added that were neither
    deleted nor fired. -/
structure State where
  store : Store UtilTimer
  list : SortTimerList
  pending : Multiset Ptr

/-- The calls of a client. It allocates the timers, and sets `expire` of a listed one
    right before it adjusts it. -/
inductive Op where
  | new (p : Ptr) (t : TimerData)
  | addTimer (timer : Option Ptr)
  | adjustTimer (timer : Option Ptr) (expire : Int)
  | delTimer (timer : Option Ptr)
  | tick (cur : Int)
deriving Repr, DecidableEq

/-- What a client may ask for: a new timer has an unused address, one that is added is
    live and not listed, and one that is adjusted, no lower, or deleted is listed. -/
def Legal (st : State) : Op → Prop
  | .new p _ => st.store p = none
  | .addTimer timer => ∀ p, timer = some p → (st.store p).isSome ∧ p ∉ st.pending
  | .adjustTimer timer e => ∀ p, timer = some p →
      p ∈ st.pending ∧ ∀ v, st.store p = some v → v.val.expire ≤ e
  | .delTimer timer => ∀ p, timer = some p → p ∈ st.pending
  | .tick _ => True

def setExpire (s : Store UtilTimer) (timer : Option Ptr) (e : Int) :
    Except Fault (Store UtilTimer) :=
  if timer = none then return s else modify s timer fun v => { v with val := { v.val with expire := e } }

/-- One call, with fuel for its loop. -/
def exec (n : Nat) (st : State) : Op → Except Fault State
  | .new p t => return { st with store := Function.update st.store p (some ⟨t, none, none⟩) }
  | .addTimer timer => do
    let (s, l) ← addTimer n st.store st.list timer
    return ⟨s, l, Multiset.ofList timer.toList + st.pending⟩
  | .adjustTimer timer e => do
    let s ← setExpire st.store timer e
    let (s, l) ← adjustTimer n s st.list timer
    return ⟨s, l, st.pending⟩
  | .delTimer timer => do
    let (s, l) ← delTimer st.store st.list timer
    return ⟨s, l, st.pending - Multiset.ofList timer.toList⟩
  | .tick cur => do
    let (s, l, fired) ← tick n st.store st.list cur
    return ⟨s, l, st.pending - Multiset.ofList (fired.map Prod.fst)⟩

/-- A call returns a state if it does so with any fuel from some amount on. -/
def Returns (st : State) (op : Op) (st' : State) : Prop :=
  ∃ k, ∀ n, k ≤ n → exec n st op = .ok st'

/-- The states a list can be in, from its constructor on. -/
inductive Reachable : State → Prop where
  | init : Reachable ⟨fun _ => none, ⟨none, none⟩, 0⟩
  | step {st st' : State} (op : Op) : Reachable st → Legal st op → Returns st op st' → Reachable st'

/-- The invariant of a run: the nodes represent a sorted list of the pending timers,
    and a timer that is not listed has not been linked. -/
structure Inv (st : State) (es : List Entry) : Prop where
  rep : Represents st.store st.list es
  sorted : Sorted es
  pending : Multiset.ofList (addrs es) = st.pending
  fresh : ∀ p v, st.store p = some v → p ∉ st.pending → v.prev = none ∧ v.next = none

/-- What a call does to the sorted list. -/
inductive Listed : Op → List Entry → List Entry → Prop where
  | new (p : Ptr) (t : TimerData) (es : List Entry) : Listed (.new p t) es es
  | addNull (es : List Entry) : Listed (.addTimer none) es es
  | add {p : Ptr} (d : TimerData) {es : List Entry} : p ∉ addrs es →
      Listed (.addTimer (some p)) es (insertSorted (p, d) es)
  | adjustNull (e : Int) (es : List Entry) : Listed (.adjustTimer none e) es es
  | adjust (p : Ptr) {d : TimerData} {e : Int} (pre post : List Entry) : d.expire ≤ e →
      Listed (.adjustTimer (some p) e) (pre ++ (p, d) :: post)
        (pre ++ insertSorted (p, { d with expire := e }) post)
  | deleteNull (es : List Entry) : Listed (.delTimer none) es es
  | delete (p : Ptr) (d : TimerData) (pre post : List Entry) :
      Listed (.delTimer (some p)) (pre ++ (p, d) :: post) (pre ++ post)
  | tick (cur : Int) (es : List Entry) : Listed (.tick cur) es (es.dropWhile (due cur))

/-- A timer that expires later than before moves back. -/
theorem Sorted.adjust {d' : TimerData} (h : Sorted (pre ++ (p, d) :: post))
    (hd : d.expire ≤ d'.expire) : Sorted (pre ++ insertSorted (p, d') post) := by
  obtain ⟨hpre, hpost, hle⟩ := List.pairwise_append.mp h
  obtain ⟨-, hpost⟩ := List.pairwise_cons.mp hpost
  refine List.pairwise_append.mpr ⟨hpre, Sorted.insert hpost _, fun x hx y hy => ?_⟩
  rcases List.mem_cons.mp ((insertSorted_perm _ post).subset hy) with rfl | hy
  · exact (hle x hx _ List.mem_cons_self).trans hd
  · exact hle x hx y (List.mem_cons_of_mem _ hy)

theorem Represents.setExpire {e : Int} (hr : Represents s l (pre ++ (p, d) :: post)) :
    ∃ s', setExpire s (some p) e = .ok s' ∧
      Represents s' l (pre ++ (p, { d with expire := e }) :: post) ∧ Frame s s' [p] := by
  obtain ⟨-, hp, -⟩ := seg_split.mp hr.seg
  obtain ⟨-, hppre, hppost⟩ := nodup_split hr.nodup
  refine ⟨Function.update s p (some ⟨{ d with expire := e }, last none pre, first post none⟩),
    by simp [SortTimerList.setExpire, hp], ⟨hr.seg.setVal ?_ ?_, ?_, ?_, fun _ => ?_⟩, ?_⟩
  · rw [Function.update_self]
  · intro q hq
    rw [addrs_append, List.mem_append] at hq
    exact Function.update_of_ne (by rintro rfl; exact hq.elim hppre hppost) ..
  · simpa using hr.nodup
  · simpa using hr.head
  · simpa using hr.tail (by simp)
  · intro q hq
    exact Function.update_of_ne (by simpa using hq) ..

variable {st : State}

theorem Inv.mem (h : Inv st es) : p ∈ st.pending ↔ p ∈ addrs es := by
  rw [← h.pending, Multiset.mem_coe]

theorem Inv.pending_sub (h : Inv st es) {ps qs : List Ptr} (hperm : List.Perm (ps ++ qs) (addrs es)) :
    st.pending - Multiset.ofList qs = Multiset.ofList ps := by
  rw [← h.pending, ← Multiset.coe_eq_coe.mpr hperm, ← Multiset.coe_add,
    Multiset.add_sub_cancel_right]

/-- An operation keeps the invariant if what it takes off the list is deleted, and the
    nodes outside it are left alone. -/
theorem Inv.carry (h : Inv st es) {s' : Store UtilTimer} {l' : SortTimerList} {es' : List Entry}
    (hrep : Represents s' l' es') (hsorted : Sorted es')
    (hout : ∀ q, q ∉ addrs es' → s' q = none ∨ q ∉ addrs es ∧ s' q = st.store q) :
    Inv ⟨s', l', Multiset.ofList (addrs es')⟩ es' := by
  refine ⟨hrep, hsorted, rfl, fun q v hq hqp => ?_⟩
  change s' q = some v at hq
  change q ∉ Multiset.ofList (addrs es') at hqp
  rw [Multiset.mem_coe] at hqp
  rcases hout q hqp with hnone | ⟨hqes, hsame⟩
  · rw [hnone] at hq
    cases hq
  · exact h.fresh q v (hsame ▸ hq) (mt h.mem.mp hqes)

theorem Inv.new (h : Inv st es) {t : TimerData} (hp : st.store p = none) :
    ∃ st', Returns st (.new p t) st' ∧ Inv st' es := by
  have hnew : p ∉ addrs es := by
    intro hmem
    obtain ⟨v, hv⟩ := h.rep.seg.live hmem
    rw [hp] at hv
    cases hv
  refine ⟨_, ⟨0, fun _ _ => rfl⟩, h.rep.update hnew _, h.sorted, h.pending, fun q v hq hpend => ?_⟩
  by_cases hqp : q = p
  · subst hqp
    obtain rfl : (⟨t, none, none⟩ : UtilTimer) = v := by simpa using hq
    exact ⟨rfl, rfl⟩
  · exact h.fresh q v (by simpa [hqp] using hq) hpend

theorem Inv.addTimer (h : Inv st es) (hlive : (st.store p).isSome) (hpend : p ∉ st.pending) :
    ∃ st' es', Returns st (.addTimer (some p)) st' ∧ Inv st' es' ∧
      Listed (.addTimer (some p)) es es' := by
  obtain ⟨⟨d, a, b⟩, hv⟩ := Option.isSome_iff_exists.mp hlive
  obtain ⟨rfl, rfl⟩ := h.fresh p _ hv hpend
  obtain ⟨s', l', hrun, hrep, hframe⟩ := addTimer_ok h.rep (mt h.mem.mpr hpend) hv
  have hperm : List.Perm (addrs (insertSorted (p, d) es)) (p :: addrs es) :=
    (insertSorted_perm (p, d) es).map Prod.fst
  refine ⟨_, _, ⟨es.length + 1, fun n hn => ?_⟩, h.carry hrep (h.sorted.insert _) fun q hq => ?_,
    .add d (mt h.mem.mpr hpend)⟩
  · have hpending : Multiset.ofList [p] + st.pending =
        Multiset.ofList (addrs (insertSorted (p, d) es)) := by
      rw [← h.pending, Multiset.coe_add, Multiset.coe_eq_coe]
      exact hperm.symm
    simp only [SortTimerList.exec, hrun n hn, ok_bind, Option.toList_some, hpending, pure_eq_ok]
  · rw [hperm.mem_iff] at hq
    exact .inr ⟨fun hmem => hq (List.mem_cons_of_mem _ hmem), hframe q hq⟩

theorem Inv.adjustTimer (h : Inv st es) {e : Int} (hpend : p ∈ st.pending)
    (hle : ∀ v, st.store p = some v → v.val.expire ≤ e) :
    ∃ st' es', Returns st (.adjustTimer (some p) e) st' ∧ Inv st' es' ∧
      Listed (.adjustTimer (some p) e) es es' := by
  obtain ⟨pre, d, post, rfl⟩ := mem_split (h.mem.mp hpend)
  obtain ⟨s₁, hset, hrep₁, hframe₁⟩ := h.rep.setExpire (e := e)
  obtain ⟨s', l', hrun, hrep, hframe⟩ := adjustTimer_ok hrep₁
  have hperm : List.Perm (addrs (pre ++ insertSorted (p, { d with expire := e }) post))
      (addrs (pre ++ (p, d) :: post)) := by
    rw [addrs_append, addrs_append]
    exact ((insertSorted_perm _ post).map Prod.fst).append_left _
  have hde : d.expire ≤ e := hle _ (seg_split.mp h.rep.seg).2.1
  have hsorted : Sorted (pre ++ insertSorted (p, { d with expire := e }) post) := h.sorted.adjust hde
  refine ⟨_, _, ⟨post.length + 1, fun n hn => ?_⟩, h.carry hrep hsorted fun q hq => ?_,
    .adjust p pre post hde⟩
  · have hpending : st.pending = Multiset.ofList
        (addrs (pre ++ insertSorted (p, { d with expire := e }) post)) := by
      rw [← h.pending, Multiset.coe_eq_coe]
      exact hperm.symm
    simp only [SortTimerList.exec, hset, hrun n hn, ok_bind, ← hpending, pure_eq_ok]
  · rw [hperm.mem_iff] at hq
    have hqp : q ∉ [p] := by
      rintro hqp
      simp [List.mem_singleton.mp hqp] at hq
    exact .inr ⟨hq, (hframe q (by simpa using hq)).trans (hframe₁ q hqp)⟩

theorem Inv.delTimer (h : Inv st es) (hpend : p ∈ st.pending) :
    ∃ st' es', Returns st (.delTimer (some p)) st' ∧ Inv st' es' ∧
      Listed (.delTimer (some p)) es es' := by
  obtain ⟨pre, d, post, rfl⟩ := mem_split (h.mem.mp hpend)
  obtain ⟨s', l', hrun, hrep, hgone, hframe⟩ := delTimer_ok h.rep
  have hsorted : Sorted (pre ++ post) := h.sorted.sublist (by simp)
  refine ⟨_, _, ⟨0, fun n hn => ?_⟩, h.carry hrep hsorted fun q hq => ?_, .delete p d pre post⟩
  · have hperm : List.Perm (addrs (pre ++ post) ++ [p]) (addrs (pre ++ (p, d) :: post)) := by
      rw [addrs_append, addrs_append, addrs_cons]
      exact (List.perm_append_singleton ..).trans List.perm_middle.symm
    simp only [SortTimerList.exec, hrun, ok_bind, Option.toList_some, h.pending_sub hperm, pure_eq_ok]
  · by_cases hqp : q = p
    · exact .inl (hqp ▸ hgone)
    · have hq' : q ∉ addrs (pre ++ (p, d) :: post) := by
        simp only [addrs_append, addrs_cons, List.mem_append, List.mem_cons] at hq ⊢
        tauto
      exact .inr ⟨hq', hframe q hq'⟩

theorem Inv.tick (h : Inv st es) (cur : Int) :
    ∃ st' es', Returns st (.tick cur) st' ∧ Inv st' es' ∧ Listed (.tick cur) es es' := by
  obtain ⟨s', l', hrun, hrep, hgone, hframe⟩ := tick_ok cur h.rep
  have hsplit : addrs (es.takeWhile (due cur)) ++ addrs (es.dropWhile (due cur)) = addrs es := by
    rw [← addrs_append, List.takeWhile_append_dropWhile]
  refine ⟨_, _, ⟨es.length + 1, fun n hn => ?_⟩,
    h.carry hrep (h.sorted.sublist (List.dropWhile_sublist _)) fun q hq => ?_, .tick cur es⟩
  · have hperm : List.Perm (addrs (es.dropWhile (due cur)) ++ addrs (es.takeWhile (due cur)))
        (addrs es) := hsplit ▸ List.perm_append_comm
    have hpending := h.pending_sub hperm
    simp only [addrs] at hpending
    simp only [SortTimerList.exec, hrun n hn, ok_bind, hpending, pure_eq_ok, addrs]
  · by_cases hq' : q ∈ addrs (es.takeWhile (due cur))
    · exact .inl (hgone q hq')
    · have hqes : q ∉ addrs es := by
        rw [← hsplit, List.mem_append]
        exact not_or.mpr ⟨hq', hq⟩
      exact .inr ⟨hqes, hframe q hqes⟩

/-- A legal call returns, keeps the invariant, and does to the list what it says. -/
theorem Inv.exec_listed (h : Inv st es) {op : Op} (hlegal : Legal st op) :
    ∃ st' es', Returns st op st' ∧ Inv st' es' ∧ Listed op es es' := by
  cases op with
  | new p t =>
    obtain ⟨st', hret, h'⟩ := h.new (t := t) hlegal
    exact ⟨st', es, hret, h', .new p t es⟩
  | addTimer timer =>
    cases timer with
    | none =>
      refine ⟨st, es, ⟨0, fun n _ => ?_⟩, h, .addNull es⟩
      simp [SortTimerList.exec, SortTimerList.addTimer]
    | some p => exact h.addTimer (hlegal p rfl).1 (hlegal p rfl).2
  | adjustTimer timer e =>
    cases timer with
    | none =>
      refine ⟨st, es, ⟨0, fun n _ => ?_⟩, h, .adjustNull e es⟩
      simp [SortTimerList.exec, setExpire, SortTimerList.adjustTimer]
    | some p => exact h.adjustTimer (hlegal p rfl).1 (hlegal p rfl).2
  | delTimer timer =>
    cases timer with
    | none =>
      refine ⟨st, es, ⟨0, fun n _ => ?_⟩, h, .deleteNull es⟩
      simp [SortTimerList.exec, SortTimerList.delTimer]
    | some p => exact h.delTimer (hlegal p rfl)
  | tick cur => exact h.tick cur

/-- A legal call returns, and keeps the invariant. -/
theorem Inv.exec (h : Inv st es) {op : Op} (hlegal : Legal st op) :
    ∃ st' es', Returns st op st' ∧ Inv st' es' := by
  obtain ⟨st', es', hret, h', -⟩ := h.exec_listed hlegal
  exact ⟨st', es', hret, h'⟩

theorem Returns.unique {op : Op} {st₁ st₂ : State} (h₁ : Returns st op st₁) (h₂ : Returns st op st₂) :
    st₁ = st₂ :=
  Yields.unique h₁ h₂

theorem Reachable.inv (h : Reachable st) : ∃ es, Inv st es := by
  induction h with
  | init => exact ⟨[], ⟨trivial, List.nodup_nil, rfl, by simp⟩, .nil, rfl, nofun⟩
  | step _ _ hlegal hret ih =>
    obtain ⟨es, h⟩ := ih
    obtain ⟨st', es', hret', h'⟩ := h.exec hlegal
    exact ⟨es', hret.unique hret' ▸ h'⟩

/-- What the links of a list say, in terms of the nodes `ps` reached from `head`: `next`
    and `prev` lead to the neighbours and are null at the ends, `tail` is the last node,
    and the expiry times do not decrease. -/
structure WellLinked (st : State) (ps : List Ptr) : Prop where
  head : st.list.head = ps[0]?
  next : ∀ i p, ps[i]? = some p → ∃ v, st.store p = some v ∧ v.next = ps[i + 1]?
  prev : ∀ i p, ps[i]? = some p →
    ∃ v, st.store p = some v ∧ v.prev = if i = 0 then none else ps[i - 1]?
  tail : st.list.head ≠ none → st.list.tail = ps.getLast?
  sorted : ps.Pairwise fun p q => ∀ v w, st.store p = some v → st.store q = some w →
    v.val.expire ≤ w.val.expire
  nodup : ps.Nodup
  pending : Multiset.ofList ps = st.pending

theorem Inv.wellLinked (h : Inv st es) : WellLinked st (addrs es) where
  head := by rw [h.rep.head, first_eq_getElem?]
  next _ _ hi := by
    obtain ⟨v, hv, hnext, -⟩ := h.rep.seg.getElem hi
    exact ⟨v, hv, hnext⟩
  prev _ _ hi := by
    obtain ⟨v, hv, -, hprev⟩ := h.rep.seg.getElem hi
    exact ⟨v, hv, hprev⟩
  tail hne := by
    rw [h.rep.tail, last_eq_getLast?]
    rintro rfl
    exact hne h.rep.head
  sorted := by
    rw [addrs, List.pairwise_map]
    refine List.Pairwise.imp_of_mem (fun hx hy hle v w hv hw => ?_) h.sorted
    obtain ⟨v', hv', hvx⟩ := h.rep.seg.get hx
    obtain ⟨w', hw', hwy⟩ := h.rep.seg.get hy
    obtain rfl := Option.some.inj (hv.symm.trans hv')
    obtain rfl := Option.some.inj (hw.symm.trans hw')
    rw [hvx, hwy]
    exact hle
  nodup := h.rep.nodup
  pending := h.pending

/-- In every run the list stays sorted and linked both ways, holds the pending timers,
    each once, and the next call returns. -/
theorem reachable_wellLinked (h : Reachable st) :
    (∃ ps, WellLinked st ps) ∧ ∀ op, Legal st op → ∃ st', Returns st op st' := by
  obtain ⟨es, hinv⟩ := h.inv
  refine ⟨⟨_, hinv.wellLinked⟩, fun op hlegal => ?_⟩
  obtain ⟨st', -, hret, -⟩ := hinv.exec hlegal
  exact ⟨st', hret⟩

theorem Returns.of_exec {op : Op} {st' : State} (k : Nat) (h : ∀ n, exec (n + k) st op = .ok st') :
    Returns st op st' :=
  Yields.of_add k h

/-- Two timers are added, the second one behind the first, and the first one fires. -/
def oneFired : State :=
  let t₁ : TimerData := ⟨5, 0, none⟩
  let t₂ : TimerData := ⟨7, 0, none⟩
  let new := Function.update (Function.update (fun _ => none) 1 (some ⟨t₁, none, none⟩)) 2
    (some ⟨t₂, none, none⟩)
  let linked := Function.update (Function.update (Function.update new 1 (some ⟨t₁, none, some 2⟩))
    2 (some ⟨t₂, none, none⟩)) 2 (some ⟨t₂, some 1, none⟩)
  ⟨Function.update (Function.update linked 2 (some ⟨t₂, none, none⟩)) 1 none,
    ⟨some 2, some 2⟩, Multiset.ofList [2]⟩

theorem reachable_wellLinked_oneFired :
    (∃ ps, WellLinked oneFired ps) ∧ ∀ op, Legal oneFired op → ∃ st', Returns oneFired op st' := by
  apply reachable_wellLinked
  have h₁ := Reachable.init.step (.new 1 ⟨5, 0, none⟩) rfl (Returns.of_exec 0 fun _ => rfl)
  have h₂ := h₁.step (.new 2 ⟨7, 0, none⟩) rfl (Returns.of_exec 0 fun _ => rfl)
  have h₃ := h₂.step (.addTimer (some 1)) (by rintro p ⟨⟩; exact ⟨rfl, by simp⟩)
    (Returns.of_exec 1 fun _ => rfl)
  have h₄ := h₃.step (.addTimer (some 2)) (by rintro p ⟨⟩; exact ⟨rfl, by simp⟩)
    (Returns.of_exec 1 fun _ => rfl)
  exact h₄.step (.tick 6) trivial (Returns.of_exec 2 fun _ => rfl)

end SortTimerList

end Timers
