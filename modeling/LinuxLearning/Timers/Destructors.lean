-- SUMMARY: The destructors of the three timer containers: after any use they delete the timers still held, each once, and no other.
import LinuxLearning.Timers.SortedRuns
import LinuxLearning.Timers.WheelLists
import LinuxLearning.Timers.HeapRuns

/-!
# The destructors of the timer containers

Each destructor walks what it owns and deletes timer by timer. A timer that were met twice, or
had been deleted before, would be a fault, and one that were missed would stay live.
-/

namespace Timers

open Memory DoublyLinked SinglyLinked HoleHeap Transition

-- ---------------------------------------------------------------------------
-- ~sort_timer_list
-- ---------------------------------------------------------------------------

namespace SortTimerList

/-- The loop of `~sort_timer_list`. -/
def destroyLoop : Nat → Store UtilTimer → SortTimerList → Option Ptr → Result
  | 0, _, _, _ => throw .outOfFuel
  | _ + 1, s, l, none => return (s, l)
  | n + 1, s, l, some p => do
    let l := { l with head := (← deref s (some p)).next }
    let s ← free s (some p)
    destroyLoop n s l l.head

/-- `~sort_timer_list`. -/
def destroy (n : Nat) (s : Store UtilTimer) (l : SortTimerList) : Result :=
  destroyLoop n s l l.head

theorem destroyLoop_ok {s : Store UtilTimer} {l : SortTimerList} {ps : List Ptr} {n : Nat}
    (h : Chain Node.next s l.head ps) (hn : ps.length < n) :
    destroyLoop n s l l.head = .ok (without s ps, { l with head := none }) := by
  obtain ⟨n, rfl⟩ := Nat.exists_eq_add_one.mpr (Nat.zero_lt_of_lt hn)
  induction ps generalizing s l n with
  | nil =>
    obtain ⟨head, tail⟩ := l
    obtain rfl : head = none := h
    rw [destroyLoop, without_nil]
    rfl
  | cons p ps ih =>
    obtain ⟨hhead, v, hv, hps⟩ := h.pop
    have hlt := Nat.lt_of_succ_lt_succ hn
    obtain ⟨n, rfl⟩ := Nat.exists_eq_add_one.mpr (Nat.zero_lt_of_lt hlt)
    have hrest := ih (l := { l with head := v.next }) hps n hlt
    rw [without_append] at hrest
    rw [hhead, destroyLoop, deref_of_live hv, ok_bind, free_of_live hv, ok_bind, update_none]
    exact hrest

/-- Whatever the list was used for, its destructor deletes the timers that are still pending,
    and every other timer is as it was. -/
theorem destroy_pending {st : State} (h : Reachable st) :
    ∃ s', Yields (fun n => destroy n st.store st.list) (s', { st.list with head := none }) ∧
      ∀ p, s' p = if p ∈ st.pending then none else st.store p := by
  obtain ⟨es, hinv⟩ := h.inv
  have hchain : Chain Node.next st.store st.list.head (addrs es) := hinv.rep.head ▸ hinv.rep.seg.chain
  refine ⟨without st.store (addrs es), ⟨(addrs es).length + 1, fun n hn => ?_⟩, fun p => ?_⟩
  · exact destroyLoop_ok hchain hn
  · rw [without, if_congr hinv.mem.symm rfl rfl]

/-- Two timers are listed, and a third one is not. -/
theorem destroy_pending_two : ∃ (st : State) (s' : Store UtilTimer),
    (Yields (fun n => destroy n st.store st.list) (s', { st.list with head := none }) ∧
      ∀ p, s' p = if p ∈ st.pending then none else st.store p) ∧
    st.pending = {2, 1} ∧ (s' 3).isSome := by
  have h₁ := Reachable.init.step (.new 1 ⟨5, 0, none⟩) rfl (Returns.of_exec 0 fun _ => rfl)
  have h₂ := h₁.step (.new 2 ⟨7, 0, none⟩) rfl (Returns.of_exec 0 fun _ => rfl)
  have h₃ := h₂.step (.new 3 ⟨6, 0, none⟩) rfl (Returns.of_exec 0 fun _ => rfl)
  have h₄ := h₃.step (.addTimer (some 1)) (by rintro p ⟨⟩; exact ⟨rfl, by simp⟩)
    (Returns.of_exec 1 fun _ => rfl)
  have h₅ := h₄.step (.addTimer (some 2)) (by rintro p ⟨⟩; exact ⟨rfl, by simp⟩)
    (Returns.of_exec 1 fun _ => rfl)
  obtain ⟨s', hret, hs'⟩ := destroy_pending h₅
  refine ⟨_, s', ⟨hret, hs'⟩, rfl, ?_⟩
  rw [hs']
  rfl

end SortTimerList

-- ---------------------------------------------------------------------------
-- ~time_wheel
-- ---------------------------------------------------------------------------

namespace TimeWheel

/-- The loop over the timers of slot `i`. -/
def destroySlot (i : Int) : Nat → TimeWheel → Option Ptr → Except Fault TimeWheel
  | 0, _, _ => throw .outOfFuel
  | _ + 1, w, none => return w
  | n + 1, w, some p => do
    let w ← setSlot w i (← deref w.store (some p)).next
    let w := { w with store := ← free w.store (some p) }
    destroySlot i n w (← slot w i)

/-- The first `i` rounds of the loop over the slots. -/
def destroySlots (n : Nat) : Nat → TimeWheel → Except Fault TimeWheel
  | 0, w => return w
  | i + 1, w => do
    let w ← destroySlots n i w
    destroySlot i n w (← slot w i)

/-- `~time_wheel`. -/
def destroy (n : Nat) (w : TimeWheel) : Except Fault TimeWheel :=
  destroySlots n N.toNat w

variable {w : TimeWheel} {ls : Int → List Entry} {i : Int} {n : Nat}

theorem destroySlot_ok (hi : 0 ≤ i ∧ i < N) {ps : List Ptr} (h : Chain Node.next w.store (w.slots i) ps)
    (hn : ps.length < n) : destroySlot i n w (w.slots i) =
      .ok { w with store := without w.store ps, slots := Function.update w.slots i none } := by
  obtain ⟨n, rfl⟩ := Nat.exists_eq_add_one.mpr (Nat.zero_lt_of_lt hn)
  induction ps generalizing w n with
  | nil =>
    have hnone : w.slots i = none := h
    rw [hnone, destroySlot, without_nil, ← hnone, Function.update_eq_self]
    rfl
  | cons p ps ih =>
    obtain ⟨hhead, v, hv, hps⟩ := h.pop
    have hlt := Nat.lt_of_succ_lt_succ hn
    obtain ⟨n, rfl⟩ := Nat.exists_eq_add_one.mpr (Nat.zero_lt_of_lt hlt)
    have hrest := @ih
      { w with store := without w.store [p], slots := Function.update w.slots i v.next }
      (by simpa using hps) n hlt
    simp only [Function.update_self, Function.update_idem, without_append] at hrest
    rw [hhead, destroySlot, deref_of_live hv, ok_bind, setSlot_ok hi, ok_bind, free_of_live hv, ok_bind,
      update_none]
    simp only [slot_ok hi, ok_bind, Function.update_self]
    exact hrest

/-- The timers in the first `i` slots. -/
def timersBelow (ls : Int → List Entry) (i : Nat) : List Ptr :=
  (List.range i).flatMap fun j : Nat => addrs (ls j)

theorem timersBelow_succ (ls : Int → List Entry) (i : Nat) :
    timersBelow ls (i + 1) = timersBelow ls i ++ addrs (ls i) := by
  simp [timersBelow, List.range_succ]

theorem mem_timersBelow {p : Ptr} {k : Nat} : p ∈ timersBelow ls k ↔ ∃ j < k, p ∈ addrs (ls (j : Nat)) := by
  simp [timersBelow]

theorem length_le_timersBelow {i k : Nat} (hi : i < k) : (ls (i : Nat)).length ≤ (timersBelow ls k).length := by
  obtain ⟨before, after, hsplit⟩ := List.append_of_mem (List.mem_range.mpr hi)
  rw [timersBelow, hsplit, List.flatMap_append, List.flatMap_cons, List.length_append, List.length_append,
    addrs, List.length_map]
  omega

theorem Inv.destroySlots_ok (h : Inv w ls) {k : Nat} (hk : (k : Int) ≤ N)
    (hn : ∀ i < k, (ls (i : Nat)).length < n) : ∃ slots, destroySlots n k w =
      .ok { w with store := without w.store (timersBelow ls k), slots := slots } ∧
      ∀ i : Int, slots i = if 0 ≤ i ∧ i < k then none else w.slots i := by
  induction k with
  | zero =>
    refine ⟨w.slots, by simp [destroySlots, timersBelow], fun i => ?_⟩
    rw [if_neg (by omega)]
  | succ k ih =>
    obtain ⟨slots, hrun, hslots⟩ := ih (by omega) fun i hi => hn i (by omega)
    have hk' : 0 ≤ (k : Int) ∧ (k : Int) < N := by omega
    have hslot : slots k = w.slots k := by
      rw [hslots, if_neg (by omega)]
    have hchain : Chain Node.next (without w.store (timersBelow ls k)) (slots k) (addrs (ls k)) := by
      rw [hslot, (h.holds k).head]
      refine (h.holds k).seg.chain.congr fun p hp => without_of_notMem fun hbelow => ?_
      obtain ⟨j, hj, hpj⟩ := mem_timersBelow.mp hbelow
      have heq := h.disjoint hp hpj
      omega
    refine ⟨Function.update slots k none, ?_, fun i => ?_⟩
    · have hlen : (addrs (ls k)).length < n := by
        rw [addrs, List.length_map]
        exact hn k (Nat.lt_succ_self k)
      have hdone := @destroySlot_ok
        { w with store := without w.store (timersBelow ls k), slots := slots } k n hk' _ hchain hlen
      rw [without_append, ← timersBelow_succ] at hdone
      rw [destroySlots, hrun, ok_bind, slot_ok hk', ok_bind]
      exact hdone
    · by_cases hik : i = k
      · subst hik
        rw [Function.update_self, if_pos (by omega)]
      · rw [Function.update_of_ne hik, hslots]
        exact if_congr (by omega) rfl rfl

/-- The wheel owns all its timers, so that nothing stays live. -/
theorem Inv.destroy_ok (h : Inv w ls) : ∃ w', Yields (fun n => destroy n w) w' ∧
    w'.store = (fun _ => none) ∧ ∀ i, 0 ≤ i → i < N → w'.slots i = none := by
  have hN : ((N.toNat : Nat) : Int) = N := by decide
  obtain ⟨slots, -, hslots⟩ := h.destroySlots_ok (n := (timersBelow ls N.toNat).length + 1) hN.le
    fun i hi => Nat.lt_succ_of_le (length_le_timersBelow hi)
  refine ⟨⟨without w.store (timersBelow ls N.toNat), slots, w.curSlot⟩,
    ⟨(timersBelow ls N.toNat).length + 1, fun n hn => ?_⟩, ?_, fun i hlo hhi => ?_⟩
  · obtain ⟨slots', hrun, hslots'⟩ := h.destroySlots_ok hN.le
      fun i hi => Nat.lt_of_le_of_lt (length_le_timersBelow hi) hn
    obtain rfl : slots' = slots := funext fun i => (hslots' i).trans (hslots i).symm
    exact hrun
  · funext p
    by_cases hp : p ∈ timersBelow ls N.toNat
    · exact if_pos hp
    · refine (without_of_notMem hp).trans ?_
      rw [← Option.not_isSome_iff_eq_none, h.isSome_iff_slot]
      rintro ⟨i, hlo, hhi, hmem⟩
      refine hp (mem_timersBelow.mpr ⟨i.toNat, by omega, ?_⟩)
      rwa [Int.toNat_of_nonneg hlo]
  · exact (hslots i).trans (if_pos ⟨hlo, hhi.trans_eq hN.symm⟩)

namespace Client

/-- After every run of a client the destructor deletes each timer that is outstanding once, so
    that none is left, and no slot leads anywhere. -/
theorem destroy_outstanding {es : List Event} (hrun : Run Step init es w) :
    (∀ p, (w.store p).isSome ↔ p ∈ outstanding es) ∧ ∃ w', Yields (fun n => destroy n w) w' ∧
      w'.store = (fun _ => none) ∧ ∀ i, 0 ≤ i → i < N → w'.slots i = none := by
  obtain ⟨⟨ls, hinv⟩, hmem⟩ := run_inv hrun
  exact ⟨fun p => (hmem p).symm, hinv.destroy_ok⟩

/-- Two timers of one slot, and one of another. -/
theorem destroy_outstanding_three : ∃ es w, Run Step init es w ∧
    ((∀ p, (w.store p).isSome ↔ p ∈ outstanding es) ∧ ∃ w', Yields (fun n => destroy n w) w' ∧
      w'.store = (fun _ => none) ∧ ∀ i, 0 ≤ i → i < N → w'.slots i = none) ∧
    outstanding es = {7, 8, 9} := by
  have hrun : ∃ w, Run Step init [(.addTimer 8 61 3 none, []), (.addTimer 9 1 3 none, []), (.addTimer 7 2 3 none, [])] w := by
    apply Exists.intro
    apply Run.cons (Step.of_exec (.addTimer 8 61 3 none) (fun _ => rfl) 0 fun _ => rfl)
    apply Run.cons (Step.of_exec (.addTimer 9 1 3 none) (fun _ => rfl) 0 fun _ => rfl)
    exact Run.cons (Step.of_exec (.addTimer 7 2 3 none) (fun _ => rfl) 0 fun _ => rfl) (Run.nil _)
  obtain ⟨w, hrun⟩ := hrun
  exact ⟨_, w, hrun, destroy_outstanding hrun, by decide⟩

end Client

end TimeWheel

-- ---------------------------------------------------------------------------
-- ~time_heap
-- ---------------------------------------------------------------------------

namespace TimeHeap

/-- The first `i` rounds of the loop of `~time_heap`. -/
def destroyLoop (h : TimeHeap) : Nat → Store HeapTimer → Except Fault (Store HeapTimer)
  | 0, s => return s
  | i + 1, s => do
    let s ← destroyLoop h i s
    free s (← h.get i)

/-- `~time_heap`, up to the array itself. -/
def destroy (h : TimeHeap) (s : Store HeapTimer) : Except Fault (Store HeapTimer) :=
  destroyLoop h h.curSize s

theorem destroyLoop_ok {s : Store HeapTimer} {h : TimeHeap} {f : Nat → Ptr} {n : Nat} (hle : n ≤ h.capacity)
    (harray : ∀ i < n, h.array i = some (f i)) (hlive : ∀ i < n, (s (f i)).isSome)
    (hinj : ∀ i < n, ∀ j < n, f i = f j → i = j) :
    destroyLoop h n s = .ok (without s ((List.range n).map f)) := by
  induction n with
  | zero => simp [destroyLoop]
  | succ n ih =>
    have hrest := ih (by omega) (fun i hi => harray i (by omega)) (fun i hi => hlive i (by omega))
      fun i hi j hj => hinj i (by omega) j (by omega)
    obtain ⟨t, ht⟩ := Option.isSome_iff_exists.mp (hlive n (Nat.lt_succ_self n))
    -- the timers deleted so far are others
    have hnew : f n ∉ (List.range n).map f := by
      intro hmem
      obtain ⟨i, hi, heq⟩ := List.mem_map.mp hmem
      have hi := List.mem_range.mp hi
      have := hinj i (by omega) n (by omega) heq
      omega
    rw [destroyLoop, hrest, ok_bind, get_ok (by omega), ok_bind, harray n (Nat.lt_succ_self n),
      free_of_live ((without_of_notMem hnew).trans ht), update_none, without_append, List.range_succ,
      List.map_append, List.map_singleton]

/-- Whatever the heap was used for, its destructor deletes the timers held, each once, and every
    other timer is as it was. -/
theorem destroy_held (alloc : Nat → Bool) {st : State} (hr : Reachable alloc st) :
    destroy st.heap st.store = .ok fun p => if p ∈ st.held then none else st.store p := by
  have hinv := hr.inv
  obtain ⟨f, hf⟩ : ∃ f : Nat → Ptr, ∀ i < st.heap.curSize, st.heap.array i = some (f i) := by
    refine ⟨fun i => (st.heap.array i).getD 0, fun i hi => ?_⟩
    obtain ⟨p, t, hp, -⟩ := hinv.ready.live i hi
    simp [hp]
  have hheld : st.held = (Multiset.range st.heap.curSize).map f := by
    apply Multiset.map_injective (Option.some_injective Ptr)
    rw [← hinv.contents, contents, Multiset.map_map]
    exact Multiset.map_congr rfl fun i hi => hf i (Multiset.mem_range.mp hi)
  have hmem (p : Ptr) : p ∈ st.held ↔ p ∈ (List.range st.heap.curSize).map f := by
    rw [hheld]
    simp
  have hnodup := hinv.nodup
  rw [hheld, Multiset.nodup_map_iff_inj_on (Multiset.nodup_range _)] at hnodup
  simp only [Multiset.mem_range] at hnodup
  rw [destroy, destroyLoop_ok hinv.le hf ?_ hnodup]
  · exact congrArg Except.ok (funext fun p => if_congr (hmem p).symm rfl rfl)
  · intro i hi
    exact hinv.live _ ((hmem _).mpr (List.mem_map_of_mem (List.mem_range.mpr hi)))

/-- A heap built from two timers, and a third timer that it does not hold. -/
theorem destroy_held_two :
    ∃ h, destroy h (fun p => if p < 3 then some ⟨9 - p, none, none⟩ else none) =
      .ok fun p => if p ∈ Multiset.ofList [0, 1] then none else
        if p < 3 then some ⟨9 - p, none, none⟩ else none := by
  obtain ⟨h, hrun⟩ : ∃ h, ofArray (fun _ => true)
      (fun p => if p < 3 then some ⟨9 - p, none, none⟩ else none) [some 0, some 1] 2 2 =
        .ok (some h) := ⟨_, rfl⟩
  exact ⟨h, destroy_held (fun _ => true) (.ofArray (by decide) (by decide) (by decide) hrun)⟩

end TimeHeap

end Timers
