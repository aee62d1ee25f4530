-- SUMMARY: The order in which the timer list fires: by expiry, and among equal times by the last call that set the timer.
import LinuxLearning.Common.Run
import LinuxLearning.Timers.SortedRuns

/-!
# The order of firing

Timers of the same expiry stand in the order in which they were last added or adjusted. A
call is known by its place in the run, so the order of the list is a lexicographic one.
-/

namespace Timers

open Memory DoublyLinked Transition

namespace SortTimerList

variable {ops : List Op} {op : Op} {es es' pre post : List Entry} {p q : Ptr} {x y : Entry}
  {stamp stamp' : Ptr → Nat}

/-- A call that adds or adjusts the timer. -/
def Op.sets (p : Ptr) : Op → Bool
  | .addTimer timer => timer = some p
  | .adjustTimer timer _ => timer = some p
  | _ => false

/-- The number of the last call that added or adjusted the timer, from 1 on. -/
def lastSet (ops : List Op) (p : Ptr) : Nat :=
  ops.length - ops.reverse.findIdx (Op.sets p)

theorem lastSet_le (ops : List Op) (p : Ptr) : lastSet ops p ≤ ops.length :=
  Nat.sub_le ..

theorem lastSet_snoc (ops : List Op) (op : Op) (p : Ptr) :
    lastSet (ops ++ [op]) p = if op.sets p then ops.length + 1 else lastSet ops p := by
  have hle : ops.reverse.findIdx (Op.sets p) ≤ ops.length := by
    rw [← List.length_reverse]
    exact List.findIdx_le_length
  unfold lastSet
  rw [List.reverse_append, List.reverse_singleton, List.singleton_append, List.findIdx_cons,
    List.length_append, List.length_singleton]
  cases Op.sets p op with
  | true => simp
  | false =>
    simp only [cond_false, Bool.false_eq_true, if_false]
    omega

/-- Before in the list: expires first, or at the same time and was set first. -/
def InOrder (stamp : Ptr → Nat) (x y : Entry) : Prop :=
  x.2.expire < y.2.expire ∨ x.2.expire = y.2.expire ∧ stamp x.1 < stamp y.1

theorem InOrder.of_le (hle : x.2.expire ≤ y.2.expire) (hlt : stamp x.1 < stamp y.1) : InOrder stamp x y :=
  (lt_or_eq_of_le hle).imp_right fun h => ⟨h, hlt⟩

theorem InOrder.le (h : InOrder stamp x y) : x.2.expire ≤ y.2.expire :=
  h.elim le_of_lt fun h => h.1.le

theorem InOrder.congr (h : InOrder stamp x y) (hx : stamp' x.1 = stamp x.1) (hy : stamp' y.1 = stamp y.1) :
    InOrder stamp' x y := by
  rwa [InOrder, hx, hy]

/-- Only the stamps of the timers listed matter. -/
theorem inOrder_congr (h : es.Pairwise (InOrder stamp)) (hstamp : ∀ p ∈ addrs es, stamp' p = stamp p) :
    es.Pairwise (InOrder stamp') :=
  h.imp_of_mem fun hx hy hxy =>
    hxy.congr (hstamp _ (List.mem_map_of_mem hx)) (hstamp _ (List.mem_map_of_mem hy))

/-- A timer set last goes behind those that expire no later. -/
theorem inOrder_insert (h : es.Pairwise (InOrder stamp)) (hlast : ∀ p ∈ addrs es, stamp p < stamp x.1) :
    (insertSorted x es).Pairwise (InOrder stamp) := by
  apply insertSorted_pairwise h
  · exact fun _ _ hxy => .inl hxy
  · exact fun _ _ hxy hyz => .inl (lt_of_lt_of_le hxy hyz.le)
  · exact fun y hy hxy => .of_le (not_lt.mp hxy) (hlast y.1 (List.mem_map_of_mem hy))

/-- A call keeps the list in order: what it sets is the last. -/
theorem Listed.inOrder (h : Listed op es es') (hnodup : (addrs es).Nodup)
    (hes : es.Pairwise (InOrder (lastSet ops))) : es'.Pairwise (InOrder (lastSet (ops ++ [op]))) := by
  have hkeep : ∀ {fs : List Entry}, fs.Pairwise (InOrder (lastSet ops)) →
      (∀ q ∈ addrs fs, op.sets q = false) → fs.Pairwise (InOrder (lastSet (ops ++ [op]))) := by
    intro fs hfs hset
    refine inOrder_congr hfs fun q hq => ?_
    rw [lastSet_snoc, hset q hq, if_neg Bool.false_ne_true]
  have hlast : ∀ {fs : List Entry} {p : Ptr}, op.sets p = true → (∀ q ∈ addrs fs, op.sets q = false) →
      ∀ q ∈ addrs fs, lastSet (ops ++ [op]) q < lastSet (ops ++ [op]) p := by
    intro fs p hp hset q hq
    rw [lastSet_snoc, lastSet_snoc, hset q hq, if_neg Bool.false_ne_true, if_pos hp]
    exact Nat.lt_succ_of_le (lastSet_le ops q)
  cases h with
  | new p t => exact hkeep hes fun _ _ => rfl
  | addNull => exact hkeep hes fun _ _ => rfl
  | @add p d _ hp =>
    have hset : ∀ q ∈ addrs es, Op.sets q (.addTimer (some p)) = false := by
      intro q hq
      simp only [Op.sets, Option.some.injEq, decide_eq_false_iff_not]
      rintro rfl
      exact hp hq
    exact inOrder_insert (hkeep hes hset) (hlast (by simp [Op.sets]) hset)
  | adjustNull e => exact hkeep hes fun _ _ => rfl
  | @adjust p d e pre post hde =>
    obtain ⟨-, hppre, hppost⟩ := nodup_split hnodup
    obtain ⟨hpre, hrest, hcross⟩ := List.pairwise_append.mp hes
    obtain ⟨-, hpost⟩ := List.pairwise_cons.mp hrest
    have hset : ∀ {fs : List Entry}, p ∉ addrs fs →
        ∀ q ∈ addrs fs, Op.sets q (.adjustTimer (some p) e) = false := by
      intro fs hp q hq
      simp only [Op.sets, Option.some.injEq, decide_eq_false_iff_not]
      rintro rfl
      exact hp hq
    have hself : Op.sets p (.adjustTimer (some p) e) = true := by simp [Op.sets]
    refine List.pairwise_append.mpr ⟨hkeep hpre (hset hppre),
      inOrder_insert (hkeep hpost (hset hppost)) (hlast hself (hset hppost)), fun x hx y hy => ?_⟩
    rcases List.mem_cons.mp ((insertSorted_perm _ post).subset hy) with rfl | hy
    · exact .of_le ((hcross x hx _ List.mem_cons_self).le.trans hde)
        (hlast hself (hset hppre) _ (List.mem_map_of_mem hx))
    · refine (hcross x hx y (List.mem_cons_of_mem _ hy)).congr ?_ ?_
      · rw [lastSet_snoc, hset hppre _ (List.mem_map_of_mem hx), if_neg Bool.false_ne_true]
      · rw [lastSet_snoc, hset hppost _ (List.mem_map_of_mem hy), if_neg Bool.false_ne_true]
  | deleteNull => exact hkeep hes fun _ _ => rfl
  | delete p d pre post => exact hkeep (hes.sublist (by simp)) fun _ _ => rfl
  | tick cur => exact hkeep (hes.sublist (List.dropWhile_sublist _)) fun _ _ => rfl

/-- One legal call. -/
def Step (st : State) (op : Op) (st' : State) : Prop :=
  Legal st op ∧ Returns st op st'

/-- The list as its constructor leaves it. -/
def init : State :=
  ⟨fun _ => none, ⟨none, none⟩, 0⟩

theorem run_inOrder {st : State} (hrun : Run Step init ops st) :
    ∃ es, Inv st es ∧ es.Pairwise (InOrder (lastSet ops)) := by
  refine Run.history (I := fun ops st => ∃ es, Inv st es ∧ es.Pairwise (InOrder (lastSet ops)))
    ?_ hrun ⟨[], ⟨⟨trivial, List.nodup_nil, rfl, by simp⟩, .nil, rfl, nofun⟩, .nil⟩
  rintro ops st op st' ⟨es, hinv, hes⟩ ⟨hlegal, hret⟩
  obtain ⟨st'', es', hret', hinv', hlisted⟩ := hinv.exec_listed hlegal
  exact ⟨es', hret.unique hret' ▸ hinv', hlisted.inOrder hinv.rep.nodup hes⟩

/-- After any calls, a tick fires the timers of the list that are due, each once, those that
    expire first first, and of the same expiry in the order of the calls that set them last. The
    others stay, in the same order. -/
theorem run_tick_fires {ops : List Op} {st : State} (hrun : Run Step init ops st) (cur : Int) :
    ∃ fired rest, Represents st.store st.list (fired ++ rest) ∧
      Multiset.ofList (addrs (fired ++ rest)) = st.pending ∧
      (∀ x ∈ fired, x.2.expire ≤ cur) ∧ (∀ x ∈ rest, cur < x.2.expire) ∧
      fired.Pairwise (InOrder (lastSet ops)) ∧
      ∃ s' l', Yields (fun n => tick n st.store st.list cur) (s', l', fired) ∧ Represents s' l' rest := by
  obtain ⟨es, hinv, hes⟩ := run_inOrder hrun
  obtain ⟨s', l', htick, hrep, -, -⟩ := tick_ok cur hinv.rep
  obtain ⟨htake, hdrop⟩ := hinv.sorted.takeWhile_due cur
  have hsplit : es.takeWhile (due cur) ++ es.dropWhile (due cur) = es := List.takeWhile_append_dropWhile
  refine ⟨es.takeWhile (due cur), es.dropWhile (due cur), hsplit.symm ▸ hinv.rep,
    hsplit.symm ▸ hinv.pending, fun x hx => ?_, fun x hx => ?_,
    hes.sublist (List.takeWhile_sublist _), s', l', ⟨es.length + 1, fun n hn => htick n hn⟩, hrep⟩
  · rw [htake] at hx
    simpa [due] using (List.mem_filter.mp hx).2
  · rw [hdrop] at hx
    simpa [due] using (List.mem_filter.mp hx).2

/-- Two timers of the same expiry; the first one is adjusted and goes behind the second. -/
def adjusted : List Op :=
  [.new 1 ⟨5, 0, none⟩, .new 2 ⟨5, 0, none⟩, .addTimer (some 1), .addTimer (some 2), .adjustTimer (some 1) 5]

theorem run_tick_fires_adjusted :
    ∃ st, Run Step init adjusted st ∧ ∃ fired rest, Represents st.store st.list (fired ++ rest) ∧
      Multiset.ofList (addrs (fired ++ rest)) = st.pending ∧
      (∀ x ∈ fired, x.2.expire ≤ 6) ∧ (∀ x ∈ rest, 6 < x.2.expire) ∧
      fired.Pairwise (InOrder (lastSet adjusted)) ∧
      ∃ s' l', Yields (fun n => tick n st.store st.list 6) (s', l', fired) ∧ Represents s' l' rest := by
  obtain ⟨st, hrun⟩ : ∃ st, Run Step init adjusted st :=
    ⟨_, .cons ⟨rfl, Returns.of_exec 0 fun _ => rfl⟩ <|
      .cons ⟨rfl, Returns.of_exec 0 fun _ => rfl⟩ <|
      .cons ⟨by rintro p ⟨⟩; exact ⟨rfl, by simp [init]⟩, Returns.of_exec 1 fun _ => rfl⟩ <|
      .cons ⟨by rintro p ⟨⟩; exact ⟨rfl, by simp [init]⟩, Returns.of_exec 1 fun _ => rfl⟩ <|
      .cons ⟨by rintro p ⟨⟩; exact ⟨by simp [init], by rintro v ⟨⟩; decide⟩,
        Returns.of_exec 1 fun _ => rfl⟩ (.nil _)⟩
  exact ⟨st, hrun, run_tick_fires hrun 6⟩

end SortTimerList

end Timers
