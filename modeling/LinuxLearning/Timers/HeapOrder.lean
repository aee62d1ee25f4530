-- SUMMARY: The timer heap keeps its order and its contents: specifications of the operations and the invariant of every run.
import LinuxLearning.Common.HoleHeap
import LinuxLearning.Timers.TimeHeap

/-!
# Order and contents of the timer heap

The loops of `time_heap` are instances of the rules for a heap with a hole. A state
of a run carries the timers put in and not yet popped, and `Inv` relates them to the
array.
-/

namespace Timers

open Memory HoleHeap

namespace TimeHeap

variable {alloc : Nat → Bool} {s : Store HeapTimer} {h : TimeHeap} {tmp : Option Ptr} {hole k i : Nat}

/-- A pointer to a live timer. -/
def Live (s : Store HeapTimer) (x : Option Ptr) : Prop :=
  ∃ p t, x = some p ∧ s p = some t

/-- The key of the heap: `expire` of the timer behind a pointer. -/
def expireOf (s : Store HeapTimer) (x : Option Ptr) : Int :=
  match x.bind s with
  | some t => t.expire
  | none => 0

theorem Live.deref {x : Option Ptr} (hx : Live s x) :
    ∃ t, deref s x = .ok t ∧ t.expire = expireOf s x := by
  obtain ⟨p, t, rfl, ht⟩ := hx
  exact ⟨t, deref_of_live ht, by simp [expireOf, ht]⟩

/-- What the loops rely on: the used part lies in the array and points to live timers. -/
structure Ready (s : Store HeapTimer) (h : TimeHeap) : Prop where
  le : h.curSize ≤ h.capacity
  live : ∀ i, i < h.curSize → Live s (h.array i)

theorem get_ok (hi : i < h.capacity) : h.get i = .ok (h.array i) :=
  if_pos hi

theorem set_ok (hi : i < h.capacity) (x : Option Ptr) : h.set i x = .ok (h.put i x) :=
  if_pos hi

theorem Ready.get (hr : Ready s h) (hi : i < h.curSize) : h.get i = .ok (h.array i) :=
  get_ok (hi.trans_le hr.le)

theorem Ready.expireAt (hr : Ready s h) (hi : i < h.curSize) :
    h.expireAt s i = .ok (expireOf s (h.array i)) := by
  obtain ⟨t, ht, hkey⟩ := (hr.live i hi).deref
  rw [TimeHeap.expireAt, hr.get hi, ok_bind, ht, ok_bind, hkey]
  rfl

theorem Ready.put (hr : Ready s h) {x : Option Ptr} (hx : Live s x) : Ready s (h.put hole x) where
  le := hr.le
  live i hi := by
    by_cases hih : i = hole
    · subst hih
      simpa [TimeHeap.put] using hx
    · simpa [TimeHeap.put, Function.update_of_ne hih] using hr.live i hi

-- ---------------------------------------------------------------------------
-- The loops
-- ---------------------------------------------------------------------------

theorem Ready.lesserChild (hr : Ready s h) (hc : hole * 2 + 1 < h.curSize) :
    ∃ c, h.lesserChild s hole = .ok c ∧ 0 < c ∧ c < h.curSize ∧ parent c = hole ∧
      ∀ i, 0 < i → i < h.curSize → parent i = hole →
        expireOf s (h.array c) ≤ expireOf s (h.array i) := by
  have hchild : ∀ i, 0 < i → parent i = hole → i = hole * 2 + 1 ∨ i = hole * 2 + 2 := by
    intro i hpos hp
    simp only [parent] at hp
    omega
  unfold TimeHeap.lesserChild
  by_cases hright : hole * 2 + 1 < h.curSize - 1
  · rw [if_pos hright, hr.expireAt (by omega), ok_bind, hr.expireAt (by omega), ok_bind]
    by_cases hlt : expireOf s (h.array (hole * 2 + 1 + 1)) < expireOf s (h.array (hole * 2 + 1))
    · refine ⟨hole * 2 + 1 + 1, if_pos hlt, by omega, by omega, by simp only [parent]; omega, ?_⟩
      intro i hpos hi hp
      rcases hchild i hpos hp with rfl | rfl
      · exact hlt.le
      · exact le_refl _
    · refine ⟨hole * 2 + 1, if_neg hlt, by omega, by omega, by simp only [parent]; omega, ?_⟩
      intro i hpos hi hp
      rcases hchild i hpos hp with rfl | rfl
      · exact le_refl _
      · exact not_lt.mp hlt
  · rw [if_neg hright]
    refine ⟨hole * 2 + 1, rfl, by omega, hc, by simp only [parent]; omega, ?_⟩
    intro i hpos hi hp
    rcases hchild i hpos hp with rfl | rfl
    · exact le_refl _
    · omega

/-- The loop of `percolate_down` ends in a heap that holds `tmp` and the entries off
    the hole. -/
theorem Ready.percolateDownLoop (hr : Ready s h) (htmp : Live s tmp) (hhole : hole < h.curSize)
    (hs : Sinking (expireOf s) h.array h.curSize k hole tmp) {n : Nat} (hn : h.curSize ≤ n + hole) :
    ∃ a, TimeHeap.percolateDownLoop s tmp n h hole = .ok { h with array := a } ∧
      HeapFrom (expireOf s) a h.curSize k ∧
      contents a h.curSize = tmp ::ₘ others h.array h.curSize hole := by
  induction n generalizing h hole with
  | zero => omega
  | succ n ih =>
    obtain ⟨t, ht, htk⟩ := htmp.deref
    have hcap := hhole.trans_le hr.le
    unfold TimeHeap.percolateDownLoop
    by_cases hc : hole * 2 + 1 < h.curSize
    · obtain ⟨c, hlc, hpos, hlt, hp, hmin⟩ := hr.lesserChild hc
      have hch : hole < c := hp ▸ parent_lt hpos
      rw [if_pos (by omega), hlc, ok_bind, hr.expireAt hlt, ok_bind, ht, ok_bind, htk]
      by_cases hsink : expireOf s (h.array c) < expireOf s tmp
      · rw [if_pos hsink, hr.get hlt, ok_bind, set_ok hcap, ok_bind]
        obtain ⟨a, hrun, hheap, hcont⟩ := ih (h := h.put hole (h.array c)) (hr.put (hr.live c hlt)) hlt
          (hs.step hpos hlt hp hmin hsink) (show h.curSize ≤ n + c by omega)
        refine ⟨a, hrun, hheap, ?_⟩
        rw [show h.curSize = (h.put hole (h.array c)).curSize from rfl, hcont]
        congr 1
        exact others_step hhole hlt hch.ne'
      · rw [if_neg hsink, set_ok hcap]
        refine ⟨_, rfl, hs.fill ?_, contents_fill hhole tmp⟩
        intro i hpos' hi hpi
        exact (not_lt.mp hsink).trans (hmin i hpos' hi hpi)
    · rw [if_neg (by omega), set_ok hcap]
      refine ⟨_, rfl, hs.fill ?_, contents_fill hhole tmp⟩
      intro i hpos hi hpi
      simp only [parent] at hpi
      omega

/-- One call of `percolate_down` on a heap below the position it starts from. -/
theorem Ready.percolateDown (hr : Ready s h) (hhole : hole < h.curSize)
    (hheap : HeapFrom (expireOf s) h.array h.curSize (hole + 1)) :
    ∃ a, h.percolateDown s hole = .ok { h with array := a } ∧
      HeapFrom (expireOf s) a h.curSize hole ∧ contents a h.curSize = contents h.array h.curSize := by
  rw [TimeHeap.percolateDown, hr.get hhole, ok_bind, contents_eq_cons hhole]
  exact hr.percolateDownLoop (hr.live hole hhole) hhole (hheap.sinking _) (by omega)

/-- On an empty heap `percolate_down` writes back what it has read. -/
theorem percolateDown_empty (hsize : h.curSize = 0) (hcap : 0 < h.capacity) :
    h.percolateDown s 0 = .ok (h.put 0 (h.array 0)) := by
  rw [TimeHeap.percolateDown, get_ok hcap, ok_bind, percolateDownLoop, if_neg (by omega), set_ok hcap]

/-- The entries are the same ones, so they are as good as before. -/
theorem Ready.of_contents (hr : Ready s h) {a : Nat → Option Ptr}
    (hcont : contents a h.curSize = contents h.array h.curSize) : Ready s { h with array := a } where
  le := hr.le
  live i hi := by
    have hmem : a i ∈ contents h.array h.curSize := hcont ▸ mem_contents.mpr ⟨i, hi, rfl⟩
    obtain ⟨j, hj, hji⟩ := mem_contents.mp hmem
    show Live s (a i)
    rw [← hji]
    exact hr.live j hj

theorem Ready.heapifyLoop (hr : Ready s h) (hi : i < h.curSize)
    (hheap : HeapFrom (expireOf s) h.array h.curSize (i + 1)) :
    ∃ a, TimeHeap.heapifyLoop s i h = .ok { h with array := a } ∧
      HeapFrom (expireOf s) a h.curSize 0 ∧ contents a h.curSize = contents h.array h.curSize := by
  induction i generalizing h with
  | zero => exact hr.percolateDown hi hheap
  | succ i ih =>
    obtain ⟨a, hrun, hheap', hcont⟩ := hr.percolateDown hi hheap
    obtain ⟨a', hrun', hheap'', hcont'⟩ := ih (hr.of_contents hcont) (Nat.lt_of_succ_lt hi) hheap'
    exact ⟨a', by rw [TimeHeap.heapifyLoop, hrun, ok_bind, hrun'], hheap'', hcont'.trans hcont⟩

/-- The loop of `add_timer` ends in a heap that holds the timer and the entries off
    the hole. -/
theorem percolateUpLoop_ok {timer : Option Ptr} (hle : h.curSize ≤ h.capacity)
    (hlive : ∀ i, i < h.curSize → i ≠ hole → Live s (h.array i)) (htimer : Live s timer)
    (hhole : hole < h.curSize) (hr : Rising (expireOf s) h.array h.curSize hole timer) {n : Nat}
    (hn : hole < n) :
    ∃ a, percolateUpLoop s timer n h hole = .ok { h with array := a } ∧
      HeapFrom (expireOf s) a h.curSize 0 ∧
      contents a h.curSize = timer ::ₘ others h.array h.curSize hole := by
  induction n generalizing h hole with
  | zero => omega
  | succ n ih =>
    obtain ⟨t, ht, htk⟩ := htimer.deref
    have hcap := hhole.trans_le hle
    unfold percolateUpLoop
    by_cases hpos : 0 < hole
    · have hp := parent_lt hpos
      have hpc := hp.trans hcap
      have hlp := hlive (parent hole) (hp.trans hhole) hp.ne
      obtain ⟨tp, htp, htpk⟩ := hlp.deref
      have hexp : h.expireAt s (parent hole) = .ok (expireOf s (h.array (parent hole))) := by
        rw [TimeHeap.expireAt, get_ok hpc, ok_bind, htp, ok_bind, htpk]
        rfl
      rw [if_pos hpos]
      simp only [hexp, ok_bind, ht, htk]
      by_cases hstop : expireOf s (h.array (parent hole)) ≤ expireOf s timer
      · rw [if_pos hstop, set_ok hcap]
        exact ⟨_, rfl, hr.fill fun _ => hstop, contents_fill hhole timer⟩
      · rw [if_neg hstop, get_ok hpc, ok_bind, set_ok hcap, ok_bind]
        obtain ⟨a, hrun, hheap, hcont⟩ := ih (h := h.put hole (h.array (parent hole))) hle
          (by
            intro i hi hne
            by_cases hih : i = hole
            · subst hih
              simpa [TimeHeap.put] using hlp
            · simpa [TimeHeap.put, Function.update_of_ne hih] using hlive i hi hih)
          (hp.trans hhole) (hr.step hpos hhole (not_le.mp hstop)) (by omega)
        refine ⟨a, hrun, hheap, ?_⟩
        rw [show h.curSize = (h.put hole (h.array (parent hole))).curSize from rfl, hcont]
        congr 1
        exact others_step hhole (hp.trans hhole) hp.ne
    · rw [if_neg hpos, set_ok hcap]
      exact ⟨_, rfl, hr.fill fun hp => absurd hp hpos, contents_fill hhole timer⟩

theorem copyLoop_ok {src : Nat → Except Fault (Option Ptr)} {f : Nat → Option Ptr} {n : Nat}
    (hsrc : ∀ i, i < n → src i = .ok (f i)) (hn : n ≤ h.capacity) :
    ∃ a, copyLoop src n h = .ok { h with array := a } ∧ ∀ i, i < n → a i = f i := by
  induction n with
  | zero => exact ⟨h.array, rfl, fun i hi => absurd hi (Nat.not_lt_zero i)⟩
  | succ n ih =>
    obtain ⟨a, hrun, ha⟩ := ih (fun i hi => hsrc i (hi.trans (Nat.lt_succ_self n))) (Nat.le_of_succ_le hn)
    refine ⟨Function.update a n (f n), ?_, ?_⟩
    · rw [copyLoop, hrun, ok_bind, hsrc n (Nat.lt_succ_self n), ok_bind]
      exact set_ok (h := { h with array := a }) hn (f n)
    · intro i hi
      by_cases hin : i = n
      · subst hin
        exact Function.update_self ..
      · rw [Function.update_of_ne hin]
        exact ha i (by omega)

-- ---------------------------------------------------------------------------
-- The operations
-- ---------------------------------------------------------------------------

/-- A heap with room takes a live timer. -/
theorem Ready.insert (hr : Ready s h) (hroom : h.curSize < h.capacity)
    (hheap : HeapFrom (expireOf s) h.array h.curSize 0) {timer : Option Ptr} (ht : Live s timer) :
    ∃ a, h.insert s timer = .ok { h with array := a, curSize := h.curSize + 1 } ∧
      HeapFrom (expireOf s) a (h.curSize + 1) 0 ∧
      contents a (h.curSize + 1) = timer ::ₘ contents h.array h.curSize := by
  rw [← others_last]
  exact percolateUpLoop_ok (h := { h with curSize := h.curSize + 1 }) hroom
    (fun i hi hne => hr.live i (Nat.lt_of_le_of_ne (Nat.le_of_lt_succ hi) hne)) ht
    (Nat.lt_succ_self _) (hheap.rising timer) (Nat.lt_succ_self _)

/-- Growing throws, or leaves the used part as it was. -/
theorem Ready.resize (hr : Ready s h) (alloc : Nat → Bool) :
    (h.resize alloc = .ok none ∧ alloc (2 * h.capacity) = false) ∨
      ∃ a, h.resize alloc = .ok (some ⟨a, 2 * h.capacity, h.curSize⟩) ∧
        ∀ i, i < h.curSize → a i = h.array i := by
  unfold TimeHeap.resize newArray
  cases halloc : alloc (2 * h.capacity) with
  | false => exact .inl ⟨rfl, rfl⟩
  | true =>
    obtain ⟨a, hrun, ha⟩ := copyLoop_ok (h := ⟨fun _ => none, 2 * h.capacity, h.curSize⟩)
      (fun i hi => hr.get hi) (by have := hr.le; simp only; omega)
    refine .inr ⟨a, ?_, ha⟩
    rw [if_pos rfl]
    simp only [hrun, ok_bind]
    rfl

/-- `add_timer` throws only where `new` does. -/
theorem Ready.addTimer_throws (hr : Ready s h) (alloc : Nat → Bool) {timer : Option Ptr}
    (hrun : h.addTimer alloc s timer = .ok none) : alloc (2 * h.capacity) = false := by
  have hins : ∀ g : TimeHeap,
      (do return some (← g.insert s timer)) ≠ (.ok none : Except Fault (Option TimeHeap)) := by
    intro g hg
    have hens : Ensures (do return some (← g.insert s timer)) fun h' => h' ≠ none :=
      .bind_any fun k => .pure (Option.some_ne_none k)
    exact hens _ hg rfl
  unfold TimeHeap.addTimer at hrun
  split at hrun
  · cases hrun
  · split at hrun
    · rcases hr.resize alloc with ⟨-, halloc⟩ | ⟨a, hres, -⟩
      · exact halloc
      · rw [hres, ok_bind] at hrun
        exact absurd hrun (hins _)
    · exact absurd hrun (hins h)

/-- `add_timer` throws and changes nothing, or puts the timer in. -/
theorem Ready.addTimer (hr : Ready s h) (alloc : Nat → Bool) (hcap : 0 < h.capacity)
    (hheap : HeapFrom (expireOf s) h.array h.curSize 0) {p : Ptr} (ht : Live s (some p)) :
    h.addTimer alloc s (some p) = .ok none ∨
      ∃ h', h.addTimer alloc s (some p) = .ok (some h') ∧ h'.curSize = h.curSize + 1 ∧
        h'.curSize ≤ h'.capacity ∧ HeapFrom (expireOf s) h'.array h'.curSize 0 ∧
        contents h'.array h'.curSize = some p ::ₘ contents h.array h.curSize := by
  have hins : ∀ g : TimeHeap, Ready s g → g.curSize = h.curSize → g.curSize < g.capacity →
      (∀ i, i < h.curSize → g.array i = h.array i) → ∃ h', g.insert s (some p) = .ok h' ∧
        h'.curSize = h.curSize + 1 ∧ h'.curSize ≤ h'.capacity ∧
        HeapFrom (expireOf s) h'.array h'.curSize 0 ∧
        contents h'.array h'.curSize = some p ::ₘ contents h.array h.curSize := by
    intro g hg hsize hroom hsame
    have hgheap : HeapFrom (expireOf s) g.array g.curSize 0 := by
      rw [hsize]
      exact hheap.congr fun i hi => by rw [hsame i hi]
    obtain ⟨a, hrun, ha, hcont⟩ := hg.insert hroom hgheap ht
    rw [hsize, contents_congr hsame] at hcont
    rw [hsize] at hrun ha
    exact ⟨_, hrun, rfl, hsize ▸ hroom, ha, hcont⟩
  unfold TimeHeap.addTimer
  rw [if_neg (Option.some_ne_none p)]
  by_cases hfull : h.capacity ≤ h.curSize
  · rw [if_pos hfull]
    rcases hr.resize alloc with ⟨hthrow, -⟩ | ⟨a, hrun, ha⟩
    · left
      rw [hthrow, ok_bind]
      rfl
    · right
      have hg : Ready s ⟨a, 2 * h.capacity, h.curSize⟩ :=
        ⟨by have := hr.le; simp only; omega, fun i hi => by
          show Live s (a i)
          rw [ha i hi]
          exact hr.live i hi⟩
      obtain ⟨h', hins', hrest⟩ := hins _ hg rfl (by have := hr.le; simp only; omega) ha
      refine ⟨h', ?_, hrest⟩
      rw [hrun, ok_bind]
      simp only [hins', ok_bind]
      rfl
  · right
    obtain ⟨h', hins', hrest⟩ := hins h hr rfl (not_le.mp hfull) fun _ _ => rfl
    refine ⟨h', ?_, hrest⟩
    rw [if_neg hfull, hins', ok_bind]
    rfl

-- Deleting a timer leaves the others as they are.

theorem expireOf_free {p : Ptr} {x : Option Ptr} (hx : x ≠ some p) :
    expireOf (Function.update s p none) x = expireOf s x := by
  cases x with
  | none => rfl
  | some q => simp [expireOf, Function.update_of_ne (fun e : q = p => hx (congrArg some e))]

theorem Live.free {p : Ptr} {x : Option Ptr} (hx : Live s x) (hne : x ≠ some p) :
    Live (Function.update s p none) x := by
  obtain ⟨q, t, rfl, ht⟩ := hx
  exact ⟨q, t, rfl, by rwa [Function.update_of_ne fun e : q = p => hne (congrArg some e)]⟩

/-- `pop_timer` deletes the first timer, and the last one percolates down from its place. -/
theorem Ready.popTimer (hr : Ready s h) (hpos : 0 < h.curSize)
    (hheap : HeapFrom (expireOf s) h.array h.curSize 0) (hnodup : (contents h.array h.curSize).Nodup) :
    ∃ p h', h.array 0 = some p ∧ h.popTimer s = .ok (Function.update s p none, h') ∧
      h'.capacity = h.capacity ∧ h'.curSize ≤ h'.capacity ∧
      HeapFrom (expireOf (Function.update s p none)) h'.array h'.curSize 0 ∧
      some p ::ₘ contents h'.array h'.curSize = contents h.array h.curSize := by
  obtain ⟨p, t, hp, ht⟩ := hr.live 0 hpos
  obtain ⟨n, hn⟩ : ∃ n, h.curSize = n + 1 := ⟨h.curSize - 1, by omega⟩
  have hle := hr.le
  have hne : ∀ i, 0 < i → i < n + 1 → h.array i ≠ some p := by
    intro i hi hlt he
    rw [← hp] at he
    have := Multiset.inj_on_of_nodup_map hnodup i (Multiset.mem_range.mpr (by omega)) 0
      (Multiset.mem_range.mpr hpos) he
    omega
  have hrun : h.popTimer s = do
      let h ← ({ h with curSize := n }.put 0 (h.array n)).percolateDown (Function.update s p none) 0
      return (Function.update s p none, h) := by
    have hcap0 : (0 : Nat) < h.capacity := by omega
    have hcapn : n < h.capacity := by omega
    simp only [TimeHeap.popTimer, empty, hn, hr.get hpos, hp, ok_bind, free_of_live ht]
    simp [TimeHeap.get, TimeHeap.set, hcap0, hcapn]
  have hlast : contents h.array (n + 1) = h.array n ::ₘ contents h.array n := by
    rw [contents_eq_cons (Nat.lt_succ_self n), others_last]
  rcases Nat.eq_zero_or_pos n with rfl | hn0
  · -- the last timer was the first one, and what stays behind is not in use
    refine ⟨p, ({ h with curSize := 0 }.put 0 (h.array 0)).put 0 (h.array 0), hp, ?_, rfl, Nat.zero_le _,
      .of_leaves (Nat.zero_le _), ?_⟩
    · rw [hrun, percolateDown_empty (h := ({ h with curSize := 0 } : TimeHeap).put 0 (h.array 0)) rfl
        (show 0 < h.capacity by omega)]
      simp [TimeHeap.put]
    · rw [hn, hlast, hp]
      rfl
  · have hroot : Function.update h.array 0 (h.array n) 0 = h.array n := Function.update_self ..
    have hoff : ∀ i, 0 < i → Function.update h.array 0 (h.array n) i = h.array i :=
      fun i hi => Function.update_of_ne hi.ne' ..
    have hready : Ready (Function.update s p none) ({ h with curSize := n }.put 0 (h.array n)) := by
      refine ⟨show n ≤ h.capacity by omega, fun i hi => ?_⟩
      change i < n at hi
      change Live _ (Function.update h.array 0 (h.array n) i)
      rcases Nat.eq_zero_or_pos i with rfl | hi0
      · rw [hroot]
        exact (hr.live n (by omega)).free (hne n hn0 (by omega))
      · rw [hoff i hi0]
        exact (hr.live i (by omega)).free (hne i hi0 (by omega))
    have hbelow : HeapFrom (expireOf (Function.update s p none))
        (Function.update h.array 0 (h.array n)) n 1 := by
      intro i hi0 hi hk
      rw [hoff i hi0, hoff _ hk, expireOf_free (hne i hi0 (by omega)),
        expireOf_free (hne _ hk ((parent_lt hi0).trans (by omega)))]
      exact hheap i hi0 (by omega) (Nat.zero_le _)
    obtain ⟨a, hdown, hheap', hcont⟩ := hready.percolateDown hn0 hbelow
    refine ⟨p, ⟨a, h.capacity, n⟩, hp, ?_, rfl, show n ≤ h.capacity by omega, hheap', ?_⟩
    · rw [hrun, hdown]
      rfl
    · change contents a n = contents (Function.update h.array 0 (h.array n)) n at hcont
      rw [hcont, contents_fill hn0, hn, hlast, contents_eq_cons hn0, hp, Multiset.cons_swap]

/-- An array of live timers becomes a heap of them, unless the constructor throws. -/
theorem ofArray_ok {ps : List (Option Ptr)} (hlive : ∀ x ∈ ps, Live s x) (alloc : Nat → Bool)
    (capacity : Nat) :
    (ofArray alloc s ps ps.length capacity = .ok none ∧
        (capacity < ps.length ∨ alloc capacity = false)) ∨
      ∃ a, ofArray alloc s ps ps.length capacity = .ok (some ⟨a, capacity, ps.length⟩) ∧
        ps.length ≤ capacity ∧ HeapFrom (expireOf s) a ps.length 0 ∧ contents a ps.length = ps := by
  unfold ofArray newArray
  by_cases hsize : capacity < ps.length
  · exact .inl ⟨if_pos hsize, .inl hsize⟩
  rw [if_neg hsize]
  cases halloc : alloc capacity with
  | false => exact .inl ⟨rfl, .inr rfl⟩
  | true =>
    right
    rw [if_pos rfl]
    by_cases hnil : ps.length = 0
    · refine ⟨fun _ => none, by simp [hnil], not_lt.mp hsize, .of_leaves (by omega), ?_⟩
      rw [List.length_eq_zero_iff] at hnil
      rw [hnil]
      rfl
    · have hsrc : ∀ i, i < ps.length → initAt ps i = .ok (ps[i]?.getD none) := by
        intro i hi
        simp [initAt, hi]
      obtain ⟨a, hcopy, ha⟩ := copyLoop_ok (h := ⟨fun _ => none, capacity, ps.length⟩) hsrc
        (not_lt.mp hsize)
      have hready : Ready s ⟨a, capacity, ps.length⟩ := by
        refine ⟨not_lt.mp hsize, fun i hi => ?_⟩
        change i < ps.length at hi
        change Live s (a i)
        rw [ha i hi]
        simp only [List.getElem?_eq_getElem hi, Option.getD_some]
        exact hlive _ (List.getElem_mem hi)
      obtain ⟨a', hheapify, hheap, hcont⟩ := hready.heapifyLoop (i := (ps.length - 1) / 2)
        (show (ps.length - 1) / 2 < ps.length by omega)
        (.of_leaves (show ps.length ≤ 2 * ((ps.length - 1) / 2 + 1) + 1 by omega))
      refine ⟨a', ?_, not_lt.mp hsize, hheap, ?_⟩
      · simp only [if_pos hnil, hcopy, ok_bind, hheapify]
        rfl
      · change contents a' ps.length = contents a ps.length at hcont
        rw [hcont, contents_congr ha]
        exact congrArg Multiset.ofList (List.ext_getElem (by simp) fun i _ hi => by simp [hi])

-- ---------------------------------------------------------------------------
-- Runs
-- ---------------------------------------------------------------------------

/-- A heap in use: the live timers, the object, and the timers that were put in and
    not popped yet. -/
structure State where
  store : Store HeapTimer
  heap : TimeHeap
  held : Multiset Ptr

/-- The calls of a client, which also allocates the timers. -/
inductive Op where
  | new (p : Ptr) (t : HeapTimer)
  | addTimer (timer : Option Ptr)
  | delTimer (timer : Option Ptr)
  | popTimer
  | top
deriving Repr, DecidableEq

/-- `new` answers with an unused address, and the heap owns the timers it holds: what
    is put in is live and not held, and what is cancelled is live. -/
def Legal (st : State) : Op → Prop
  | .new p _ => st.store p = none
  | .addTimer timer => ∀ p, timer = some p → (st.store p).isSome ∧ p ∉ st.held
  | .delTimer timer => ∀ p, timer = some p → (st.store p).isSome
  | .popTimer => True
  | .top => True

/-- One call. A call that throws leaves the state as it was. -/
def exec (alloc : Nat → Bool) (st : State) : Op → Except Fault State
  | .new p t => return { st with store := Function.update st.store p (some t) }
  | .addTimer timer => do
    match ← st.heap.addTimer alloc st.store timer with
    | none => return st
    | some h => return { st with heap := h, held := Multiset.ofList timer.toList + st.held }
  | .delTimer timer => do return { st with store := ← delTimer st.store timer }
  | .popTimer => do
    let popped ← st.heap.top
    let (s, h) ← st.heap.popTimer st.store
    return ⟨s, h, st.held - Multiset.ofList popped.toList⟩
  | .top => do
    let _ ← st.heap.top
    return st

/-- The invariant of a run. -/
structure Inv (st : State) : Prop where
  pos : 0 < st.heap.capacity
  le : st.heap.curSize ≤ st.heap.capacity
  live : ∀ p ∈ st.held, (st.store p).isSome
  nodup : st.held.Nodup
  contents : contents st.heap.array st.heap.curSize = st.held.map some
  order : HeapFrom (expireOf st.store) st.heap.array st.heap.curSize 0

variable {st : State}

theorem live_some {p : Ptr} : Live s (some p) ↔ (s p).isSome := by
  simp [Live, Option.isSome_iff_exists]

theorem Inv.ready (hi : Inv st) : Ready st.store st.heap where
  le := hi.le
  live i hlt := by
    have hmem : st.heap.array i ∈ st.held.map some := hi.contents ▸ mem_contents.mpr ⟨i, hlt, rfl⟩
    obtain ⟨p, hp, he⟩ := Multiset.mem_map.mp hmem
    rw [← he]
    exact live_some.mpr (hi.live p hp)

theorem Inv.held_eq_zero (hi : Inv st) : st.heap.curSize = 0 ↔ st.held = 0 := by
  have hcard := congrArg Multiset.card hi.contents
  rw [HoleHeap.contents, Multiset.card_map, Multiset.card_range, Multiset.card_map] at hcard
  rw [hcard, Multiset.card_eq_zero]

/-- The order depends on the expiry times of the timers held only. -/
theorem Inv.of_store (hi : Inv st) {s' : Store HeapTimer}
    (hs : ∀ p ∈ st.held, (s' p).isSome ∧ expireOf s' (some p) = expireOf st.store (some p)) :
    Inv { st with store := s' } where
  pos := hi.pos
  le := hi.le
  live p hp := (hs p hp).1
  nodup := hi.nodup
  contents := hi.contents
  order := hi.order.congr fun i hlt => by
    have hmem : st.heap.array i ∈ st.held.map some := hi.contents ▸ mem_contents.mpr ⟨i, hlt, rfl⟩
    obtain ⟨p, hp, he⟩ := Multiset.mem_map.mp hmem
    rw [← he]
    exact (hs p hp).2

/-- What `top` returns: nothing for an empty heap, else a first timer. -/
theorem Inv.top (hi : Inv st) :
    (st.heap.top = .ok none ∧ st.held = 0) ∨
      ∃ p ∈ st.held, st.heap.array 0 = some p ∧ st.heap.top = .ok (some p) ∧
        ∀ q ∈ st.held, expireOf st.store (some p) ≤ expireOf st.store (some q) := by
  rcases Nat.eq_zero_or_pos st.heap.curSize with hzero | hpos
  · exact .inl ⟨by simp [TimeHeap.top, empty, hzero], hi.held_eq_zero.mp hzero⟩
  · right
    have hmem : ∀ i, i < st.heap.curSize → st.heap.array i ∈ st.held.map some :=
      fun i hlt => hi.contents ▸ mem_contents.mpr ⟨i, hlt, rfl⟩
    obtain ⟨p, hp, he⟩ := Multiset.mem_map.mp (hmem 0 hpos)
    refine ⟨p, hp, he.symm, ?_, ?_⟩
    · have hget := hi.ready.get hpos
      simp [TimeHeap.top, empty, hpos.ne', hget, he]
    · intro q hq
      have hq' : some q ∈ HoleHeap.contents st.heap.array st.heap.curSize :=
        hi.contents ▸ Multiset.mem_map_of_mem _ hq
      obtain ⟨i, hlt, hqi⟩ := mem_contents.mp hq'
      rw [he, ← hqi]
      exact hi.order.root_le hlt

theorem Inv.new (hi : Inv st) {p : Ptr} (hp : st.store p = none) (t : HeapTimer) :
    Inv { st with store := Function.update st.store p (some t) } := by
  refine hi.of_store fun q hq => ?_
  have hne : q ≠ p := by
    rintro rfl
    have hlive := hi.live q hq
    rw [hp] at hlive
    exact absurd hlive Bool.false_ne_true
  simp only [expireOf, Option.bind_some, Function.update_of_ne hne, and_true]
  exact hi.live q hq

/-- A cancelled timer keeps its place. -/
theorem Inv.delTimer (hi : Inv st) {p : Ptr} (hp : (st.store p).isSome) :
    ∃ s', TimeHeap.delTimer st.store (some p) = .ok s' ∧ Inv { st with store := s' } := by
  obtain ⟨t, ht⟩ := Option.isSome_iff_exists.mp hp
  refine ⟨Function.update st.store p (some { t with cbFunc := none }), ?_, hi.of_store fun q hq => ?_⟩
  · simp [TimeHeap.delTimer, ht]
  · by_cases hqp : q = p
    · subst hqp
      simp [expireOf, ht]
    · simp only [expireOf, Option.bind_some, Function.update_of_ne hqp, and_true]
      exact hi.live q hq

theorem Inv.addTimer (hi : Inv st) (alloc : Nat → Bool) {p : Ptr} (hlive : (st.store p).isSome)
    (hnew : p ∉ st.held) :
    st.heap.addTimer alloc st.store (some p) = .ok none ∨
      ∃ h', st.heap.addTimer alloc st.store (some p) = .ok (some h') ∧ Inv ⟨st.store, h', p ::ₘ st.held⟩ := by
  refine (hi.ready.addTimer alloc hi.pos hi.order (live_some.mpr hlive)).imp_right ?_
  rintro ⟨h', hrun, hsize, hle, horder, hcont⟩
  exact ⟨h', hrun, {
    pos := by simp only; omega
    le := hle
    live := fun q hq => by
      rcases Multiset.mem_cons.mp hq with rfl | hq
      · exact hlive
      · exact hi.live q hq
    nodup := Multiset.nodup_cons.mpr ⟨hnew, hi.nodup⟩
    contents := by rw [hcont, hi.contents, Multiset.map_cons]
    order := horder }⟩

/-- `pop_timer` takes out and frees the timer in the first place. -/
theorem Inv.popTimer (hi : Inv st) (hpos : 0 < st.heap.curSize) :
    ∃ p h' held, st.heap.array 0 = some p ∧ st.heap.top = .ok (some p) ∧ st.held = p ::ₘ held ∧
      st.heap.popTimer st.store = .ok (Function.update st.store p none, h') ∧
      Inv ⟨Function.update st.store p none, h', held⟩ := by
  have hnodup : (HoleHeap.contents st.heap.array st.heap.curSize).Nodup := by
    rw [hi.contents]
    exact hi.nodup.map (Option.some_injective _)
  obtain ⟨p, h', hp, hrun, hcap, hle, horder, hcont⟩ := hi.ready.popTimer hpos hi.order hnodup
  have htop : st.heap.top = .ok (some p) := by
    simp [TimeHeap.top, empty, hpos.ne', hi.ready.get hpos, hp]
  have hmem : p ∈ st.held := by
    have hsome : some p ∈ st.held.map some := by
      rw [← hi.contents, ← hcont]
      exact Multiset.mem_cons_self ..
    obtain ⟨q, hq, he⟩ := Multiset.mem_map.mp hsome
    exact Option.some.inj he ▸ hq
  obtain ⟨held, hheld⟩ := Multiset.exists_cons_of_mem hmem
  have hnd := hi.nodup
  rw [hheld, Multiset.nodup_cons] at hnd
  refine ⟨p, h', held, hp, htop, hheld, hrun, ?_⟩
  exact {
    pos := hcap ▸ hi.pos
    le := hle
    live := fun q hq => by
      have hqp : q ≠ p := by
        rintro rfl
        exact hnd.1 hq
      show (Function.update st.store p none q).isSome
      rw [Function.update_of_ne hqp]
      exact hi.live q (hheld ▸ Multiset.mem_cons_of_mem hq)
    nodup := hnd.2
    contents := by
      rw [hi.contents, hheld, Multiset.map_cons, Multiset.cons_inj_right] at hcont
      exact hcont
    order := horder }

/-- Every call keeps the invariant and is free of faults. -/
theorem Inv.exec (hi : Inv st) {op : Op} (hop : Legal st op) (alloc : Nat → Bool) :
    ∃ st', exec alloc st op = .ok st' ∧ Inv st' := by
  cases op with
  | new p t => exact ⟨_, rfl, hi.new hop t⟩
  | delTimer timer =>
    cases timer with
    | none => exact ⟨st, rfl, hi⟩
    | some p =>
      obtain ⟨s', hrun, hi'⟩ := hi.delTimer (hop p rfl)
      exact ⟨_, by rw [TimeHeap.exec, hrun]; rfl, hi'⟩
  | addTimer timer =>
    cases timer with
    | none => exact ⟨st, by simp [TimeHeap.exec, TimeHeap.addTimer], hi⟩
    | some p =>
      obtain ⟨hlive, hnew⟩ := hop p rfl
      rcases hi.addTimer alloc hlive hnew with hthrow | ⟨h', hrun, hi'⟩
      · exact ⟨st, by simp [TimeHeap.exec, hthrow], hi⟩
      · exact ⟨_, by rw [TimeHeap.exec, hrun]; rfl, hi'⟩
  | popTimer =>
    rcases Nat.eq_zero_or_pos st.heap.curSize with hzero | hpos
    · exact ⟨st, by simp [TimeHeap.exec, TimeHeap.top, TimeHeap.popTimer, empty, hzero], hi⟩
    · obtain ⟨p, h', held, -, htop, hheld, hrun, hi'⟩ := hi.popTimer hpos
      have hsub : st.held - Multiset.ofList [p] = held := by
        rw [hheld]
        exact (Multiset.sub_singleton _ _).trans (Multiset.erase_cons_head _ _)
      refine ⟨⟨Function.update st.store p none, h', st.held - Multiset.ofList [p]⟩,
        by simp [TimeHeap.exec, htop, hrun], ?_⟩
      rw [hsub]
      exact hi'
  | top =>
    rcases hi.top with ⟨htop, -⟩ | ⟨p, -, -, htop, -⟩ <;>
      exact ⟨st, by simp [TimeHeap.exec, htop], hi⟩

theorem Inv.ofCapacity {cap : Nat} (hcap : 1 ≤ cap) (hrun : TimeHeap.ofCapacity alloc cap = some h) :
    Inv ⟨s, h, 0⟩ := by
  unfold TimeHeap.ofCapacity newArray at hrun
  split at hrun
  · cases hrun
    exact ⟨hcap, Nat.zero_le _, by simp, Multiset.nodup_zero, rfl, .of_leaves (Nat.zero_le _)⟩
  · cases hrun

theorem Inv.ofArray {ps : List Ptr} {cap : Nat} (hcap : 1 ≤ cap) (hlive : ∀ p ∈ ps, (s p).isSome) (hnodup : ps.Nodup)
    (hrun : TimeHeap.ofArray alloc s (ps.map some) ps.length cap = .ok (some h)) : Inv ⟨s, h, ps⟩ := by
  have hall : ∀ x ∈ ps.map some, Live s x := by
    intro x hx
    obtain ⟨p, hp, rfl⟩ := List.mem_map.mp hx
    exact live_some.mpr (hlive p hp)
  rw [← (List.length_map some : (ps.map some).length = ps.length)] at hrun
  rcases ofArray_ok hall alloc cap with ⟨hnone, -⟩ | ⟨a, hsome, hle, hord, hcont⟩
  · rw [hnone] at hrun
    cases hrun
  · rw [hsome] at hrun
    cases hrun
    exact ⟨hcap, hle, hlive, hnodup, hcont, hord⟩

/-- The heap order, in terms of the timers in the array. -/
def Ordered (st : State) : Prop :=
  ∀ i, 0 < i → i < st.heap.curSize → ∃ p q tp tq,
    st.heap.array ((i - 1) / 2) = some p ∧ st.heap.array i = some q ∧
    st.store p = some tp ∧ st.store q = some tq ∧ tp.expire ≤ tq.expire

/-- The used part of the array is the timers held, each once. -/
def HoldsExactly (st : State) : Prop :=
  (Multiset.range st.heap.curSize).map st.heap.array = st.held.map some ∧ st.held.Nodup

/-- `top` answers `NULL` for an empty heap only, and else with a first timer. -/
def TopIsFirst (st : State) : Prop :=
  (st.heap.top = .ok none ↔ st.held = 0) ∧
    ∀ p, st.heap.top = .ok (some p) → p ∈ st.held ∧ ∃ t, st.store p = some t ∧
      ∀ q ∈ st.held, ∀ tq, st.store q = some tq → t.expire ≤ tq.expire

theorem Inv.ordered (hi : Inv st) : Ordered st := by
  intro i hpos hlt
  obtain ⟨p, tp, hp, htp⟩ := hi.ready.live _ ((parent_lt hpos).trans hlt)
  obtain ⟨q, tq, hq, htq⟩ := hi.ready.live i hlt
  have hle := hi.order i hpos hlt (Nat.zero_le _)
  rw [hp, hq] at hle
  simp only [expireOf, Option.bind_some, htp, htq] at hle
  exact ⟨p, q, tp, tq, hp, hq, htp, htq, hle⟩

theorem Inv.topIsFirst (hi : Inv st) : TopIsFirst st := by
  rcases hi.top with ⟨htop, hzero⟩ | ⟨p, hp, -, htop, hmin⟩
  · refine ⟨by simp [htop, hzero], fun p hp => ?_⟩
    rw [htop] at hp
    cases hp
  · have hne : st.held ≠ 0 := by
      intro h0
      rw [h0] at hp
      exact Multiset.notMem_zero _ hp
    refine ⟨by simp [htop, hne], fun q hq => ?_⟩
    rw [htop] at hq
    cases hq
    obtain ⟨t, ht⟩ := Option.isSome_iff_exists.mp (hi.live p hp)
    refine ⟨hp, t, ht, fun q hq tq htq => ?_⟩
    have hle := hmin q hq
    simpa only [expireOf, Option.bind_some, ht, htq] using hle

end TimeHeap

end Timers
