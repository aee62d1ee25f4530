-- SUMMARY: The timer list refines a sorted list of timers: the abstract operations, and the specification of each concrete one.
import Mathlib.Data.List.Sort
import LinuxLearning.Timers.SortTimerList

/-!
# The timer list as a sorted list

Abstractly the component is a list of timers in the order of their expiry. Adding
inserts behind the timers that expire no later, adjusting removes and inserts again,
and a tick takes off the front. `Represents` relates the nodes to such a list, and
every operation on the nodes is the abstract one on it.
-/

namespace Timers

open Memory DoublyLinked

namespace SortTimerList

-- ---------------------------------------------------------------------------
-- Sorted lists of timers
-- ---------------------------------------------------------------------------

abbrev Entry := Ptr × TimerData

/-- Expires before. -/
def Before (x y : Entry) : Prop := x.2.expire < y.2.expire

instance : DecidableRel Before := fun x y => inferInstanceAs (Decidable (x.2.expire < y.2.expire))

/-- In the order of expiry. -/
def Sorted (es : List Entry) : Prop :=
  es.Pairwise fun x y => x.2.expire ≤ y.2.expire

/-- Insert in front of the first timer that expires later. -/
def insertSorted (x : Entry) (es : List Entry) : List Entry :=
  es.orderedInsert Before x

variable {x y : Entry} {es pre post : List Entry}

theorem insertSorted_cons : insertSorted x (y :: es) =
    if Before x y then x :: y :: es else y :: insertSorted x es :=
  List.orderedInsert_cons Before x y es

theorem insertSorted_perm (x : Entry) (es : List Entry) : List.Perm (insertSorted x es) (x :: es) :=
  List.perm_orderedInsert Before x es

/-- An order that agrees with the one of expiry is kept. -/
theorem insertSorted_pairwise {R : Entry → Entry → Prop} (h : es.Pairwise R)
    (hbefore : ∀ y ∈ es, Before x y → R x y) (htrans : ∀ y z, Before x y → R y z → R x z)
    (hbehind : ∀ y ∈ es, ¬ Before x y → R y x) : (insertSorted x es).Pairwise R := by
  induction es with
  | nil => exact List.pairwise_singleton _ _
  | cons y es ih =>
    obtain ⟨hy, hes⟩ := List.pairwise_cons.mp h
    rw [List.forall_mem_cons] at hbefore hbehind
    rw [insertSorted_cons]
    by_cases hxy : Before x y
    · rw [if_pos hxy]
      refine List.pairwise_cons.mpr ⟨fun z hz => ?_, h⟩
      rcases List.mem_cons.mp hz with rfl | hz
      · exact hbefore.1 hxy
      · exact htrans y z hxy (hy z hz)
    · rw [if_neg hxy]
      refine List.pairwise_cons.mpr ⟨fun z hz => ?_, ih hes hbefore.2 hbehind.2⟩
      rcases List.mem_cons.mp ((insertSorted_perm x es).subset hz) with rfl | hz
      · exact hbehind.1 hxy
      · exact hy z hz

theorem Sorted.insert (h : Sorted es) (x : Entry) : Sorted (insertSorted x es) := by
  apply insertSorted_pairwise h
  · exact fun _ _ hxy => hxy.le
  · exact fun _ _ hxy hyz => hxy.le.trans hyz
  · exact fun _ _ hxy => not_lt.mp hxy

-- ---------------------------------------------------------------------------
-- The nodes represent a list
-- ---------------------------------------------------------------------------

variable {s : Store UtilTimer} {l : SortTimerList} {p c : Ptr} {d dc : TimerData}

/-- The nodes reached from `head` are `es`, and `tail` is the last one. -/
structure Represents (s : Store UtilTimer) (l : SortTimerList) (es : List Entry) : Prop where
  seg : Seg s none es none
  nodup : (addrs es).Nodup
  head : l.head = first es none
  tail : es ≠ [] → l.tail = last none es

/-- What an operation on the nodes `es` leaves alone. -/
def Frame (s s' : Store UtilTimer) (ps : List Ptr) : Prop :=
  ∀ q, q ∉ ps → s' q = s q

/-- At the end of the list the timer becomes the last one. -/
theorem addLast_ok (hseg : Seg s none (pre ++ [(c, dc)]) none) (hnodup : (addrs (pre ++ [(c, dc)])).Nodup)
    (hp : p ∉ addrs (pre ++ [(c, dc)])) {a b : Option Ptr} (hd : s p = some ⟨d, a, b⟩) :
    ∃ s', (∀ n, addAfterLoop (some p) (n + 1) s l (some c) none = .ok (s', { l with tail := some p })) ∧
      Seg s' none (pre ++ (c, dc) :: [(p, d)]) none ∧ Frame s s' (p :: addrs (pre ++ [(c, dc)])) := by
  obtain ⟨-, hc, -⟩ := seg_split.mp hseg
  have hcp : c ≠ p := by rintro rfl; simp at hp
  have hcpre := (nodup_split hnodup).2.1
  rw [addrs_append, List.mem_append, not_or] at hp
  refine ⟨Function.update (Function.update s c (some ⟨dc, last none pre, some p⟩)) p (some ⟨d, some c, none⟩),
    fun n => ?_, hseg.insert ?_ ?_ ?_ trivial, ?_⟩
  · simp [addAfterLoop, setNext, setPrev, hc, hd, hcp.symm]
  · intro q hq
    have hqp : q ≠ p := fun e => hp.1 (e ▸ hq)
    have hqc : q ≠ c := fun e => hcpre (e ▸ hq)
    rw [Function.update_of_ne hqp, Function.update_of_ne hqc]
  · rw [Function.update_of_ne hcp, Function.update_self]
  · rw [Function.update_self]
    rfl
  · intro q hq
    simp only [addrs_append, addrs_cons, List.mem_cons, List.mem_append, not_or] at hq
    rw [Function.update_of_ne hq.1, Function.update_of_ne hq.2.2.1]

/-- In front of a node that expires later the timer is put in between. -/
theorem addBetween_ok {q : Ptr} {dq : TimerData} (hseg : Seg s none (pre ++ (c, dc) :: (q, dq) :: post) none)
    (hnodup : (addrs (pre ++ (c, dc) :: (q, dq) :: post)).Nodup)
    (hp : p ∉ addrs (pre ++ (c, dc) :: (q, dq) :: post)) {a b : Option Ptr} (hd : s p = some ⟨d, a, b⟩)
    (hlt : d.expire < dq.expire) :
    ∃ s', (∀ n, addAfterLoop (some p) (n + 1) s l (some c) (some q) = .ok (s', l)) ∧
      Seg s' none (pre ++ (c, dc) :: (p, d) :: (q, dq) :: post) none ∧
      Frame s s' (p :: addrs (pre ++ (c, dc) :: (q, dq) :: post)) := by
  obtain ⟨-, hc, hq, hpost⟩ := seg_split.mp hseg
  have hcp : c ≠ p := by rintro rfl; simp at hp
  have hqp : q ≠ p := by rintro rfl; simp at hp
  obtain ⟨hnd, hcpre, hcpost⟩ := nodup_split hnodup
  obtain ⟨-, hqpre, hqpost⟩ := nodup_split hnd
  have hcq : c ≠ q := fun e => hcpost (by simp [e])
  obtain ⟨s', hs'⟩ : ∃ s' : Store UtilTimer, s' = Function.update (Function.update (Function.update
      (Function.update s c (some ⟨dc, last none pre, some p⟩)) p (some ⟨d, a, some q⟩))
      q (some ⟨dq, some p, first post none⟩)) p (some ⟨d, some c, some q⟩) := ⟨_, rfl⟩
  have hother : ∀ r, r ≠ p → r ≠ q → r ≠ c → s' r = s r := by
    intro r hrp hrq hrc
    rw [hs', Function.update_of_ne hrp, Function.update_of_ne hrq, Function.update_of_ne hrp,
      Function.update_of_ne hrc]
  have hc' : s' c = some ⟨dc, last none pre, some p⟩ := by
    rw [hs', Function.update_of_ne hcp, Function.update_of_ne hcq, Function.update_of_ne hcp,
      Function.update_self]
  have hp' : s' p = some ⟨d, some c, some q⟩ := by
    rw [hs', Function.update_self]
  have hq' : s' q = some ⟨dq, some p, first post none⟩ := by
    rw [hs', Function.update_of_ne hqp, Function.update_self]
  refine ⟨s', fun n => ?_,
    hseg.insert ?_ hc' hp' (Seg.setPrev (a := some c) ⟨hq, hpost⟩ hq' ?_), ?_⟩
  · simp [hs', addAfterLoop, expire, setNext, setPrev, hc, hd, hq, hlt, hcp.symm, hcq.symm, hqp, hqp.symm]
  · intro r hr
    exact hother r (fun e => hp (by simp [← e, hr])) (fun e => hqpre (e ▸ hr)) fun e => hcpre (e ▸ hr)
  · intro r hr
    exact hother r (fun e => hp (by simp [← e, hr])) (fun e => hqpost (e ▸ hr))
      fun e => hcpost (by simp [← e, hr])
  · intro r hr
    simp only [addrs_append, addrs_cons, List.mem_cons, List.mem_append, not_or] at hr
    exact hother r hr.1 hr.2.2.2.1 hr.2.2.1

/-- `add_timer(timer, list_head)` inserts behind its position. -/
theorem addAfterLoop_ok (hseg : Seg s none (pre ++ (c, dc) :: post) none)
    (hnodup : (addrs (pre ++ (c, dc) :: post)).Nodup) (hp : p ∉ addrs (pre ++ (c, dc) :: post))
    {a b : Option Ptr} (hd : s p = some ⟨d, a, b⟩)
    (htail : l.tail = last none (pre ++ (c, dc) :: post)) :
    ∃ s' l', (∀ n, post.length < n →
        addAfterLoop (some p) n s l (some c) (first post none) = .ok (s', l')) ∧
      Seg s' none (pre ++ (c, dc) :: insertSorted (p, d) post) none ∧ l'.head = l.head ∧
      l'.tail = last none (pre ++ (c, dc) :: insertSorted (p, d) post) ∧
      Frame s s' (p :: addrs (pre ++ (c, dc) :: post)) := by
  induction post generalizing pre c dc with
  | nil =>
    obtain ⟨s', hrun, hseg', hframe⟩ := addLast_ok (l := l) hseg hnodup hp hd
    refine ⟨s', { l with tail := some p }, ?_, hseg', rfl, by simp [insertSorted], hframe⟩
    rintro (_ | n) hn
    · cases hn
    exact hrun n
  | cons e post ih =>
    obtain ⟨q, dq⟩ := e
    obtain ⟨-, -, hq, -⟩ := seg_split.mp hseg
    rw [insertSorted_cons]
    by_cases hlt : Before (p, d) (q, dq)
    · obtain ⟨s', hrun, hseg', hframe⟩ := addBetween_ok (l := l) hseg hnodup hp hd hlt
      rw [if_pos hlt]
      refine ⟨s', l, ?_, hseg', rfl, by simpa using htail, hframe⟩
      rintro (_ | n) hn
      · cases hn
      exact hrun n
    · rw [if_neg hlt]
      rw [List.append_cons] at hseg hnodup hp htail
      obtain ⟨s', l', hrun, hseg', hhead, htail', hframe⟩ := ih hseg hnodup hp htail
      have hlt' : ¬ d.expire < dq.expire := hlt
      refine ⟨s', l', ?_, ?_, hhead, ?_, ?_⟩
      · rintro (_ | n) hn
        · cases hn
        rw [← hrun n (Nat.lt_of_succ_lt_succ hn)]
        simp [addAfterLoop, expire, hd, hq, hlt']
      · rwa [List.append_cons]
      · rwa [List.append_cons]
      · rwa [List.append_cons]

theorem nodup_insert {hp : Ptr} {dp : TimerData} (h : (addrs (pre ++ post)).Nodup)
    (hnew : hp ∉ addrs (pre ++ post)) : (addrs (pre ++ insertSorted (hp, dp) post)).Nodup := by
  have hperm : List.Perm (addrs (pre ++ insertSorted (hp, dp) post)) (hp :: addrs (pre ++ post)) :=
    (((insertSorted_perm (hp, dp) post).append_left pre).trans List.perm_middle).map Prod.fst
  exact hperm.nodup_iff.mpr (List.nodup_cons.mpr ⟨hnew, h⟩)

/-- `add_timer(timer, list_head)` on a list. -/
theorem addAfter_ok (hr : Represents s l (pre ++ (c, dc) :: post))
    (hp : p ∉ addrs (pre ++ (c, dc) :: post)) {a b : Option Ptr} (hd : s p = some ⟨d, a, b⟩) :
    ∃ s' l', (∀ n, post.length < n → addAfter n s l (some p) (some c) = .ok (s', l')) ∧
      Represents s' l' (pre ++ (c, dc) :: insertSorted (p, d) post) ∧
      Frame s s' (p :: addrs (pre ++ (c, dc) :: post)) := by
  obtain ⟨s', l', hrun, hseg, hhead, htail, hframe⟩ :=
    addAfterLoop_ok hr.seg hr.nodup hp hd (hr.tail (by simp))
  refine ⟨s', l', ?_, ⟨hseg, ?_, ?_, fun _ => htail⟩, hframe⟩
  · intro n hn
    rw [← hrun n hn]
    simp [addAfter, (seg_split.mp hr.seg).2.1]
  · have hnd := hr.nodup
    rw [List.append_cons] at hp hnd ⊢
    exact nodup_insert hnd hp
  · rw [hhead, hr.head]
    simp

/-- `add_timer` inserts a new timer. -/
theorem addTimer_ok (hr : Represents s l es) (hp : p ∉ addrs es) (hd : s p = some ⟨d, none, none⟩) :
    ∃ s' l', (∀ n, es.length < n → addTimer n s l (some p) = .ok (s', l')) ∧
      Represents s' l' (insertSorted (p, d) es) ∧ Frame s s' (p :: addrs es) := by
  have hhead := hr.head
  cases es with
  | nil =>
    refine ⟨s, ⟨some p, some p⟩, fun n _ => ?_,
      ⟨⟨hd, trivial⟩, by simp [insertSorted], rfl, fun _ => rfl⟩, fun _ _ => rfl⟩
    rw [first_nil] at hhead
    simp [addTimer, hhead]
  | cons e es =>
    obtain ⟨c, dc⟩ := e
    obtain ⟨hc, -⟩ := hr.seg
    rw [first_cons] at hhead
    by_cases hlt : Before (p, d) (c, dc)
    · have hlt' : d.expire < dc.expire := hlt
      have hcp : c ≠ p := by rintro rfl; simp at hp
      have hrun : ∀ n, es.length + 1 < n → addTimer n s l (some p) =
          .ok (Function.update (Function.update s p (some ⟨d, none, some c⟩)) c
            (some ⟨dc, some p, first es none⟩), ⟨some p, l.tail⟩) := by
        intro n _
        simp [addTimer, hhead, expire, hd, hc, hlt', setNext, setPrev, hcp]
      have hsort : insertSorted (p, d) ((c, dc) :: es) = (p, d) :: (c, dc) :: es := by
        rw [insertSorted_cons, if_pos hlt]
      have hnd := List.nodup_cons.mpr ⟨hp, hr.nodup⟩
      refine ⟨_, _, hrun, ?_, ?_⟩
      · rw [hsort]
        refine ⟨⟨?_, hr.seg.setPrev ?_ ?_⟩, hnd, rfl, fun _ => hr.tail (by simp)⟩
        · rw [Function.update_of_ne hcp.symm, Function.update_self]
          rfl
        · rw [Function.update_self]
        · intro q hq
          have hqp : q ≠ p := fun e => hp (List.mem_cons_of_mem _ (e ▸ hq))
          have hqc : q ≠ c := fun e => (List.nodup_cons.mp hr.nodup).1 (e ▸ hq)
          rw [Function.update_of_ne hqc, Function.update_of_ne hqp]
      · intro q hq
        simp only [addrs_cons, List.mem_cons, not_or] at hq
        rw [Function.update_of_ne hq.2.1, Function.update_of_ne hq.1]
    · have hlt' : ¬ d.expire < dc.expire := hlt
      obtain ⟨s', l', hrun, hrep, hframe⟩ := @addAfter_ok [] es s l p c d dc hr hp _ _ hd
      refine ⟨s', l', ?_, ?_, hframe⟩
      · intro n hn
        rw [← hrun n (Nat.lt_of_succ_lt hn)]
        simp [addTimer, hhead, expire, hd, hc, hlt']
      · rw [insertSorted_cons, if_neg hlt]
        exact hrep

/-- Other nodes do not matter. -/
theorem Represents.congr (hr : Represents s l es) {s' : Store UtilTimer}
    (hs : ∀ q ∈ addrs es, s' q = s q) : Represents s' l es :=
  { hr with seg := hr.seg.congr hs }

theorem Represents.update (hr : Represents s l es) (hp : p ∉ addrs es) (v : Option UtilTimer) :
    Represents (Function.update s p v) l es :=
  hr.congr fun q hq => Function.update_of_ne (by rintro rfl; exact hp hq) ..

/-- The head moves on to the next node. -/
theorem Represents.dropHead {q : Ptr} {dq : TimerData}
    (hr : Represents s l ((p, d) :: (q, dq) :: post)) :
    Represents (Function.update s q (some ⟨dq, none, first post none⟩)) { l with head := some q }
      ((q, dq) :: post) := by
  have hnd := (List.nodup_cons.mp hr.nodup).2
  refine ⟨hr.seg.2.setPrev (Function.update_self ..) ?_, hnd, rfl, fun _ => hr.tail (by simp)⟩
  intro r hr'
  exact Function.update_of_ne (by rintro rfl; exact (List.nodup_cons.mp hnd).1 hr') ..

/-- The tail moves back to the node before. -/
theorem Represents.dropTail (hr : Represents s l (pre ++ (c, dc) :: [(p, d)])) :
    Represents (Function.update s c (some ⟨dc, last none pre, none⟩)) { l with tail := some c }
      (pre ++ [(c, dc)]) := by
  have hnd := hr.nodup
  rw [List.append_cons] at hnd
  obtain ⟨hnd, -, -⟩ := nodup_split hnd
  rw [List.append_nil] at hnd
  have hseg := hr.seg
  rw [List.append_cons, seg_append] at hseg
  refine ⟨hseg.1.setNext (Function.update_self ..) ?_, hnd, ?_, fun _ => by simp⟩
  · intro r hr'
    exact Function.update_of_ne (by rintro rfl; exact (nodup_split hnd).2.1 hr') ..
  · rw [hr.head]
    simp

/-- `timer` is `head` exactly when no node is in front of it. -/
theorem Represents.head_eq (hr : Represents s l (pre ++ (p, d) :: post)) :
    some p = l.head ↔ pre = [] := by
  rw [hr.head]
  cases pre with
  | nil => simp
  | cons e pre =>
    obtain ⟨c, dc⟩ := e
    have hp := (nodup_split hr.nodup).2.1
    simp only [List.cons_append, first_cons, Option.some.injEq, reduceCtorEq, iff_false]
    rintro rfl
    simp at hp

theorem Represents.tail_eq (hr : Represents s l (pre ++ (p, d) :: post)) :
    some p = l.tail ↔ post = [] := by
  rw [hr.tail (by simp), last_append, last_cons]
  rcases List.eq_nil_or_concat post with rfl | ⟨post, ⟨c, dc⟩, rfl⟩
  · simp
  · have hp := (nodup_split hr.nodup).2.2
    simp only [List.concat_eq_append, last_append, last_cons, last_nil, Option.some.injEq,
      List.append_eq_nil_iff, reduceCtorEq, and_false, iff_false]
    rintro rfl
    simp at hp

/-- A node with one in front of it. -/
theorem Represents.behind (hr : Represents s l (pre ++ (c, dc) :: (p, d) :: post)) :
    ¬ some p = l.head ∧ s c = some ⟨dc, last none pre, some p⟩ ∧ s p = some ⟨d, some c, first post none⟩ ∧
      c ≠ p ∧ p ∉ addrs (pre ++ (c, dc) :: post) := by
  obtain ⟨-, hc, hp, -⟩ := seg_split.mp hr.seg
  have hcp : c ≠ p := fun e => (nodup_split hr.nodup).2.2 (by simp [e])
  rw [List.append_cons] at hr ⊢
  have hnew := not_mem_split hr.nodup
  exact ⟨fun e => by simpa using hr.head_eq.mp e, hc, hp, hcp, hnew⟩

/-- The neighbours of a node in the middle point past it. -/
theorem Represents.bypass {q : Ptr} {dq : TimerData}
    (hr : Represents s l (pre ++ (c, dc) :: (p, d) :: (q, dq) :: post)) :
    Represents (Function.update (Function.update s c (some ⟨dc, last none pre, some q⟩))
      q (some ⟨dq, some c, first post none⟩)) l (pre ++ (c, dc) :: (q, dq) :: post) := by
  obtain ⟨hpre, -, -, hq, hpost⟩ := seg_split.mp hr.seg
  obtain ⟨-, hcpre, hcpost⟩ := nodup_split hr.nodup
  have hnd' := hr.nodup
  rw [List.append_cons] at hnd'
  obtain ⟨hnd', -, -⟩ := nodup_split hnd'
  obtain ⟨-, hqpre, hqpost⟩ := nodup_split hnd'
  have hcq : c ≠ q := fun e => hcpost (by simp [e])
  have hother : ∀ r, r ≠ c → r ≠ q → Function.update (Function.update s
      c (some ⟨dc, last none pre, some q⟩)) q (some ⟨dq, some c, first post none⟩) r = s r := by
    intro r hrc hrq
    rw [Function.update_of_ne hrq, Function.update_of_ne hrc]
  refine ⟨seg_split.mpr ⟨hpre.congr ?_, ?_, Seg.setPrev (a := some p) ⟨hq, hpost⟩ ?_ ?_⟩, ?_, ?_, ?_⟩
  · intro r hr'
    exact hother r (fun e => hcpre (e ▸ hr')) (fun e => hqpre (by simp [← e, hr']))
  · rw [Function.update_of_ne hcq, Function.update_self]
    rfl
  · rw [Function.update_self]
  · intro r hr'
    exact hother r (fun e => hcpost (by simp [← e, hr'])) (fun e => hqpost (e ▸ hr'))
  · rwa [← List.append_cons] at hnd'
  · rw [hr.head]
    simp
  · intro _
    rw [hr.tail (by simp)]
    simp

/-- `adjust_timer` puts a timer behind those that expire no later. -/
theorem adjustTimer_ok (hr : Represents s l (pre ++ (p, d) :: post)) :
    ∃ s' l', (∀ n, post.length < n → adjustTimer n s l (some p) = .ok (s', l')) ∧
      Represents s' l' (pre ++ insertSorted (p, d) post) ∧
      Frame s s' (addrs (pre ++ (p, d) :: post)) := by
  obtain ⟨-, hp, hpost⟩ := seg_split.mp hr.seg
  cases post with
  | nil => exact ⟨s, l, fun _ _ => by simp [adjustTimer, hp], hr, fun _ _ => rfl⟩
  | cons e post =>
    obtain ⟨q, dq⟩ := e
    obtain ⟨hq, -⟩ := hpost
    rw [first_cons] at hp
    rw [insertSorted_cons]
    by_cases hlt : Before (p, d) (q, dq)
    · have hlt' : d.expire < dq.expire := hlt
      rw [if_pos hlt]
      exact ⟨s, l, fun _ _ => by simp [adjustTimer, hp, hq, expire, hlt'], hr, fun _ _ => rfl⟩
    · have hlt' : ¬ d.expire < dq.expire := hlt
      rw [if_neg hlt]
      obtain ⟨-, -, hppost⟩ := nodup_split hr.nodup
      have hqp : q ≠ p := by rintro rfl; simp at hppost
      rcases List.eq_nil_or_concat pre with rfl | ⟨pre, ⟨c, dc⟩, rfl⟩
      · -- the head moves on to `q`, and the timer is added behind it
        have hh : l.head = some p := hr.head
        have hrep := Represents.update (p := p) hr.dropHead hppost (some ⟨d, none, none⟩)
        obtain ⟨s', l', hrun, hrep', hframe⟩ := @addAfter_ok [] post _ _ p q d dq hrep hppost none none
          (Function.update_self ..)
        refine ⟨s', l', ?_, hrep', ?_⟩
        · intro n hn
          rw [← hrun n (Nat.lt_of_succ_lt hn)]
          simp [adjustTimer, hp, hq, expire, hlt', hh, setPrev, setNext, hqp.symm]
        · intro r hr'
          simp only [List.nil_append, addrs_cons, List.mem_cons, not_or] at hr'
          rw [hframe r (by simp [hr']), Function.update_of_ne hr'.1, Function.update_of_ne hr'.2.1]
      · -- the neighbours point past the timer, and it is added behind the next one
        simp only [List.concat_eq_append, List.append_assoc, List.singleton_append] at hr ⊢
        obtain ⟨hne, hc, hp, hcp, hpnew⟩ := hr.behind
        have hcq : c ≠ q := fun e => (nodup_split hr.nodup).2.2 (by simp [e])
        have hrep := hr.bypass
        rw [List.append_cons] at hrep hpnew
        obtain ⟨s', l', hrun, hrep', hframe⟩ := addAfter_ok (p := p) (d := d) hrep hpnew
          (by rw [Function.update_of_ne hqp.symm, Function.update_of_ne hcp.symm, hp])
        refine ⟨s', l', ?_, ?_, ?_⟩
        · intro n hn
          rw [← hrun n (Nat.lt_of_succ_lt hn)]
          simp [adjustTimer, hp, hq, expire, hlt', hne, hc, setPrev, setNext, hqp.symm, hcp.symm,
            hcq.symm]
        · rwa [List.append_cons]
        · intro r hr'
          simp only [addrs_append, addrs_cons, List.mem_append, List.mem_cons, not_or] at hr'
          rw [hframe r (by simp [hr']), Function.update_of_ne hr'.2.2.2.1, Function.update_of_ne hr'.2.1]

/-- `del_timer` takes a timer out and deletes it. -/
theorem delTimer_ok (hr : Represents s l (pre ++ (p, d) :: post)) :
    ∃ s' l', delTimer s l (some p) = .ok (s', l') ∧ Represents s' l' (pre ++ post) ∧ s' p = none ∧
      Frame s s' (addrs (pre ++ (p, d) :: post)) := by
  obtain ⟨-, hp, hpost⟩ := seg_split.mp hr.seg
  obtain ⟨-, -, hppost⟩ := nodup_split hr.nodup
  have htail := hr.tail_eq
  have hpnew := not_mem_split hr.nodup
  rcases List.eq_nil_or_concat pre with rfl | ⟨pre, ⟨c, dc⟩, rfl⟩
  · have hh : l.head = some p := hr.head
    cases post with
    | nil =>
      have ht : l.tail = some p := hr.tail (by simp)
      refine ⟨Function.update s p none, ⟨none, none⟩, by simp [delTimer, hh, ht, hp],
        ⟨trivial, List.nodup_nil, rfl, by simp⟩, Function.update_self .., ?_⟩
      intro r hr'
      exact Function.update_of_ne (by simpa using hr') ..
    | cons e post =>
      obtain ⟨q, dq⟩ := e
      have hne : ¬ some p = l.tail := by simpa using htail
      have hqp : q ≠ p := by rintro rfl; simp at hppost
      refine ⟨_, _, ?_, hr.dropHead.update hpnew none, Function.update_self .., ?_⟩
      · simp [delTimer, hh, hne, hp, hpost.1, setPrev, hqp.symm]
      · intro r hr'
        simp only [List.nil_append, addrs_cons, List.mem_cons, not_or] at hr'
        rw [Function.update_of_ne hr'.1, Function.update_of_ne hr'.2.1]
  · simp only [List.concat_eq_append, List.append_assoc, List.singleton_append] at hr ⊢
    obtain ⟨hne, hc, hp, hcp, hpnew⟩ := hr.behind
    cases post with
    | nil =>
      have ht : l.tail = some p := (htail.mpr rfl).symm
      refine ⟨_, _, ?_, hr.dropTail.update hpnew none, Function.update_self .., ?_⟩
      · simp [delTimer, hne, ht, hp, hc, setNext, hcp.symm]
      · intro r hr'
        simp only [addrs_append, addrs_cons, List.mem_append, List.mem_cons, not_or] at hr'
        rw [Function.update_of_ne hr'.2.2.1, Function.update_of_ne hr'.2.1]
    | cons e post =>
      obtain ⟨q, dq⟩ := e
      have hnt : ¬ some p = l.tail := by simpa using htail
      have hqp : q ≠ p := by rintro rfl; simp at hppost
      have hcq : c ≠ q := fun e => (nodup_split hr.nodup).2.2 (by simp [e])
      refine ⟨_, _, ?_, hr.bypass.update hpnew none, Function.update_self .., ?_⟩
      · simp [delTimer, hne, hnt, hp, hc, hpost.1, setNext, setPrev, hcp.symm, hqp.symm, hcq.symm]
      · intro r hr'
        simp only [addrs_append, addrs_cons, List.mem_append, List.mem_cons, not_or] at hr'
        rw [Function.update_of_ne hr'.2.2.1, Function.update_of_ne hr'.2.2.2.1,
          Function.update_of_ne hr'.2.1]

/-- Due at time `cur`. -/
def due (cur : Int) (e : Entry) : Bool :=
  e.2.expire ≤ cur

theorem due_eq (cur : Int) : due cur (p, d) = decide (d.expire ≤ cur) := rfl

/-- The timers that are due come first. -/
theorem Sorted.takeWhile_due (h : Sorted es) (cur : Int) :
    es.takeWhile (due cur) = es.filter (due cur) ∧ es.dropWhile (due cur) = es.filter (!due cur ·) := by
  induction es with
  | nil => exact ⟨rfl, rfl⟩
  | cons x es ih =>
    obtain ⟨hx, hes⟩ := List.pairwise_cons.mp h
    obtain ⟨htake, hdrop⟩ := ih hes
    by_cases hdue : due cur x = true
    · simp [hdue, htake, hdrop]
    · have hrest : ∀ y ∈ es, ¬ due cur y = true := by
        intro y hy hdue'
        simp only [due, decide_eq_true_eq] at hdue hdue'
        exact hdue ((hx y hy).trans hdue')
      have hnone : es.filter (due cur) = [] := List.filter_eq_nil_iff.mpr hrest
      have hall : es.filter (!due cur ·) = es := List.filter_eq_self.mpr fun y hy => by simpa using hrest y hy
      simp [hdue, hnone, hall]

theorem popHead_ok (hr : Represents s l ((p, d) :: es)) :
    ∃ s' l', popHead s l (some p) = .ok (s', l') ∧ Represents s' l' es ∧ s' p = none ∧
      Frame s s' (addrs ((p, d) :: es)) := by
  obtain ⟨hp, hes⟩ := hr.seg
  obtain ⟨hpnew, hnd⟩ := List.nodup_cons.mp hr.nodup
  cases es with
  | nil =>
    refine ⟨Function.update s p none, ⟨none, l.tail⟩, by simp [popHead, hp],
      ⟨trivial, hnd, rfl, by simp⟩, Function.update_self .., ?_⟩
    intro r hr'
    exact Function.update_of_ne (by simpa using hr') ..
  | cons e es =>
    obtain ⟨q, dq⟩ := e
    have hqp : q ≠ p := by rintro rfl; simp at hpnew
    refine ⟨_, _, ?_, Represents.update (p := p) hr.dropHead hpnew none, Function.update_self .., ?_⟩
    · simp [popHead, hp, hes.1, setPrev, hqp.symm]
    · intro r hr'
      simp only [addrs_cons, List.mem_cons, not_or] at hr'
      rw [Function.update_of_ne hr'.1, Function.update_of_ne hr'.2.1]

/-- The loop of `tick` takes the timers that are due off the front, and leaves `tail`
    alone: it is stale if no timer is left. -/
theorem tickLoop_ok (cur : Int) (hr : Represents s l es) :
    ∃ s' l', (∀ n, es.length < n →
        tickLoop cur n s l l.head = .ok (s', l', es.takeWhile (due cur))) ∧
      Represents s' l' (es.dropWhile (due cur)) ∧
      (∀ p ∈ addrs (es.takeWhile (due cur)), s' p = none) ∧ Frame s s' (addrs es) := by
  induction es generalizing s l with
  | nil =>
    have hh : l.head = none := hr.head
    refine ⟨s, l, ?_, hr, by simp, fun _ _ => rfl⟩
    rintro (_ | n) hn
    · cases hn
    rw [hh]
    rfl
  | cons e es ih =>
    obtain ⟨p, d⟩ := e
    obtain ⟨hp, -⟩ := hr.seg
    have hh : l.head = some p := hr.head
    by_cases hlt : cur < d.expire
    · have hdue : due cur (p, d) = false := by simpa [due_eq] using hlt
      refine ⟨s, l, ?_, by simpa [hdue] using hr, by simp [hdue], fun _ _ => rfl⟩
      rintro (_ | n) hn
      · cases hn
      simp [tickLoop, hh, hp, hlt, hdue]
    · have hdue : due cur (p, d) = true := by simpa [due_eq] using hlt
      have hpnew := (List.nodup_cons.mp hr.nodup).1
      obtain ⟨s₁, l₁, hpop, hrep, hp₁, hframe₁⟩ := popHead_ok hr
      obtain ⟨s', l', hrun, hrep', hfired, hframe⟩ := ih hrep
      refine ⟨s', l', ?_, by simpa [hdue] using hrep', ?_, ?_⟩
      · rintro (_ | n) hn
        · cases hn
        have hloop := hrun n (Nat.lt_of_succ_lt_succ hn)
        simp [tickLoop, hh, hp, hlt, hpop, hloop, hdue]
      · intro r hr'
        simp only [hdue, List.takeWhile_cons_of_pos, addrs_cons, List.mem_cons] at hr'
        rcases hr' with rfl | hr'
        · rw [hframe _ hpnew, hp₁]
        · exact hfired r hr'
      · intro r hr'
        simp only [addrs_cons, List.mem_cons, not_or] at hr'
        rw [hframe r hr'.2, hframe₁ r (by simpa using hr')]

theorem tick_ok (cur : Int) (hr : Represents s l es) :
    ∃ s' l', (∀ n, es.length < n → tick n s l cur = .ok (s', l', es.takeWhile (due cur))) ∧
      Represents s' l' (es.dropWhile (due cur)) ∧
      (∀ p ∈ addrs (es.takeWhile (due cur)), s' p = none) ∧ Frame s s' (addrs es) := by
  by_cases hh : l.head = none
  · have hnil : es = [] := by
      have := hr.head
      cases es with
      | nil => rfl
      | cons e es => rw [hh] at this; cases this
    subst hnil
    exact ⟨s, l, fun n _ => by simp only [tick, if_pos hh]; rfl, hr, by simp, fun _ _ => rfl⟩
  · simp only [tick, if_neg hh]
    exact tickLoop_ok cur hr

end SortTimerList

end Timers
