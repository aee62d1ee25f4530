-- SUMMARY: Binary min-heaps in an array with a hole: the order and contents while a value percolates down or up, and the rules for one move and for filling the hole.
import Mathlib.Data.Finset.Range
import Mathlib.Order.Defs.LinearOrder

/-!
# Heaps with a hole

A value that percolates through a heap is not in the array: its place is a hole that
moves. `Sinking` and `Rising` say what holds of the array with the hole at `h` and the
value `x` in hand, `step` keeps it through one move of the loop, and `fill` ends in a
heap. `others` are the entries off the hole. Loops over any representation of the
array can use the rules.
-/

namespace HoleHeap

variable {α κ : Type*} [LinearOrder κ] {key : α → κ} {a : Nat → α} {n k h c : Nat} {x : α}

abbrev parent (i : Nat) : Nat := (i - 1) / 2

theorem parent_lt {i : Nat} (hi : 0 < i) : parent i < i := by
  unfold parent
  omega

/-- The first `n` entries are in heap order below every position from `k` on. -/
def HeapFrom (key : α → κ) (a : Nat → α) (n k : Nat) : Prop :=
  ∀ i, 0 < i → i < n → k ≤ parent i → key (a (parent i)) ≤ key (a i)

theorem HeapFrom.congr {key' : α → κ} {b : Nat → α} (hheap : HeapFrom key a n k)
    (hkey : ∀ i, i < n → key' (b i) = key (a i)) : HeapFrom key' b n k := by
  intro i hpos hi hk
  rw [hkey i hi, hkey _ ((parent_lt hpos).trans hi)]
  exact hheap i hpos hi hk

/-- Positions without children are in order. -/
theorem HeapFrom.of_leaves (hk : n ≤ 2 * k + 1) : HeapFrom key a n k := by
  intro i hpos hi hle
  unfold parent at hle
  omega

/-- The root has the least key. -/
theorem HeapFrom.root_le (hheap : HeapFrom key a n 0) {i : Nat} (hi : i < n) :
    key (a 0) ≤ key (a i) := by
  induction i using Nat.strong_induction_on with
  | _ i ih =>
    rcases Nat.eq_zero_or_pos i with rfl | hpos
    · exact le_refl _
    · have hlt := parent_lt hpos
      exact (ih _ hlt (hlt.trans hi)).trans (hheap i hpos hi (Nat.zero_le _))

-- ---------------------------------------------------------------------------
-- Percolating down
-- ---------------------------------------------------------------------------

/-- `x` sinks from the hole at `h`: the heap is in order below `k` off the hole, and
    the hole's parent is below both `x` and the hole's children. -/
structure Sinking (key : α → κ) (a : Nat → α) (n k h : Nat) (x : α) : Prop where
  off : ∀ i, 0 < i → i < n → k ≤ parent i → parent i ≠ h → i ≠ h → key (a (parent i)) ≤ key (a i)
  children : ∀ i, 0 < i → i < n → parent i = h → 0 < h → k ≤ parent h →
    key (a (parent h)) ≤ key (a i)
  value : 0 < h → k ≤ parent h → key (a (parent h)) ≤ key x

/-- A heap below the hole is the start. -/
theorem HeapFrom.sinking (hheap : HeapFrom key a n (h + 1)) (x : α) : Sinking key a n h h x where
  off i hpos hi hk hp _ := hheap i hpos hi (lt_of_le_of_ne hk (Ne.symm hp))
  children _ _ _ _ hpos hk := absurd hk (not_le.mpr (parent_lt hpos))
  value hpos hk := absurd hk (not_le.mpr (parent_lt hpos))

/-- The least child moves up into the hole. -/
theorem Sinking.step (hs : Sinking key a n k h x) (hc : 0 < c) (hn : c < n) (hp : parent c = h)
    (hmin : ∀ i, 0 < i → i < n → parent i = h → key (a c) ≤ key (a i)) (hlt : key (a c) < key x) :
    Sinking key (Function.update a h (a c)) n k c x := by
  have hch : h < c := hp ▸ parent_lt hc
  refine ⟨?_, ?_, ?_⟩
  · intro i hpos hi hk hpc hic
    by_cases hih : i = h
    · subst hih
      have hne : parent i ≠ i := (parent_lt hpos).ne
      rw [Function.update_self, Function.update_of_ne hne]
      exact hs.children c hc hn hp hpos hk
    · rw [Function.update_of_ne hih]
      by_cases hpi : parent i = h
      · rw [hpi, Function.update_self]
        exact hmin i hpos hi hpi
      · rw [Function.update_of_ne hpi]
        exact hs.off i hpos hi hk hpi hih
  · intro i hpos hi hpi _ hk
    have hic : c < i := hpi ▸ parent_lt hpos
    rw [hp, Function.update_self, Function.update_of_ne (by omega : i ≠ h), ← hpi]
    exact hs.off i hpos hi (by rw [hpi]; omega) (by rw [hpi]; omega) (by omega)
  · intro _ _
    rw [hp, Function.update_self]
    exact hlt.le

/-- The hole is filled where no child is below `x`. -/
theorem Sinking.fill (hs : Sinking key a n k h x)
    (hle : ∀ i, 0 < i → i < n → parent i = h → key x ≤ key (a i)) :
    HeapFrom key (Function.update a h x) n k := by
  intro i hpos hi hk
  by_cases hih : i = h
  · subst hih
    have hne : parent i ≠ i := (parent_lt hpos).ne
    rw [Function.update_self, Function.update_of_ne hne]
    exact hs.value hpos hk
  · rw [Function.update_of_ne hih]
    by_cases hpi : parent i = h
    · rw [hpi, Function.update_self]
      exact hle i hpos hi hpi
    · rw [Function.update_of_ne hpi]
      exact hs.off i hpos hi hk hpi hih

-- ---------------------------------------------------------------------------
-- Percolating up
-- ---------------------------------------------------------------------------

/-- `x` rises from the hole at `h`: the heap is in order off the hole, and the hole's
    children are above both `x` and the hole's parent. -/
structure Rising (key : α → κ) (a : Nat → α) (n h : Nat) (x : α) : Prop where
  off : ∀ i, 0 < i → i < n → i ≠ h → parent i ≠ h → key (a (parent i)) ≤ key (a i)
  children : ∀ i, 0 < i → i < n → parent i = h → 0 < h → key (a (parent h)) ≤ key (a i)
  value : ∀ i, 0 < i → i < n → parent i = h → key x ≤ key (a i)

/-- A hole behind the last entry is the start. -/
theorem HeapFrom.rising (hheap : HeapFrom key a n 0) (x : α) : Rising key a (n + 1) n x where
  off i hpos hi hin _ := hheap i hpos (by omega) (Nat.zero_le _)
  children i hpos hi hp := by
    have := parent_lt hpos
    omega
  value i hpos hi hp := by
    have := parent_lt hpos
    omega

/-- The parent moves down into the hole. -/
theorem Rising.step (hr : Rising key a n h x) (hpos : 0 < h) (hn : h < n)
    (hlt : key x < key (a (parent h))) :
    Rising key (Function.update a h (a (parent h))) n (parent h) x := by
  have hph := parent_lt hpos
  refine ⟨?_, ?_, ?_⟩
  · intro i hi0 hi hip hpp
    by_cases hih : i = h
    · subst hih
      exact absurd rfl hpp
    · rw [Function.update_of_ne hih]
      by_cases hpi : parent i = h
      · rw [hpi, Function.update_self]
        exact hr.children i hi0 hi hpi hpos
      · rw [Function.update_of_ne hpi]
        exact hr.off i hi0 hi hih hpi
  · intro i hi0 hi hpi hpp
    have hgp := parent_lt hpp
    have hup : key (a (parent (parent h))) ≤ key (a (parent h)) :=
      hr.off _ hpp (hph.trans hn) hph.ne (by omega)
    rw [Function.update_of_ne (by omega : parent (parent h) ≠ h)]
    by_cases hih : i = h
    · subst hih
      rw [Function.update_self]
      exact hup
    · rw [Function.update_of_ne hih]
      have hsib := hr.off i hi0 hi hih (by omega)
      rw [hpi] at hsib
      exact hup.trans hsib
  · intro i hi0 hi hpi
    by_cases hih : i = h
    · subst hih
      rw [Function.update_self]
      exact hlt.le
    · rw [Function.update_of_ne hih]
      have hsib := hr.off i hi0 hi hih (by omega)
      rw [hpi] at hsib
      exact hlt.le.trans hsib

/-- The hole is filled at the root, or below a parent that is not above `x`. -/
theorem Rising.fill (hr : Rising key a n h x) (hle : 0 < h → key (a (parent h)) ≤ key x) :
    HeapFrom key (Function.update a h x) n 0 := by
  intro i hpos hi _
  by_cases hih : i = h
  · subst hih
    rw [Function.update_self, Function.update_of_ne (parent_lt hpos).ne]
    exact hle hpos
  · rw [Function.update_of_ne hih]
    by_cases hpi : parent i = h
    · rw [hpi, Function.update_self]
      exact hr.value i hpos hi hpi
    · rw [Function.update_of_ne hpi]
      exact hr.off i hpos hi hih hpi

-- ---------------------------------------------------------------------------
-- Contents
-- ---------------------------------------------------------------------------

/-- The first `n` entries. -/
def contents (a : Nat → α) (n : Nat) : Multiset α :=
  (Multiset.range n).map a

/-- The first `n` entries without the one at `h`. -/
def others (a : Nat → α) (n h : Nat) : Multiset α :=
  ((Multiset.range n).erase h).map a

theorem mem_contents {y : α} : y ∈ contents a n ↔ ∃ i, i < n ∧ a i = y := by
  simp [contents]

theorem contents_eq_cons (hn : h < n) : contents a n = a h ::ₘ others a n h := by
  rw [contents, others, ← Multiset.map_cons, Multiset.cons_erase (Multiset.mem_range.mpr hn)]

theorem others_update (hn : h < n) (y : α) : others (Function.update a h y) n h = others a n h := by
  apply Multiset.map_congr rfl
  intro i hi
  have hne : i ≠ h := by
    rintro rfl
    exact Multiset.Nodup.notMem_erase (Multiset.nodup_range n) hi
  exact Function.update_of_ne hne ..

/-- Moving an entry into the hole moves the hole. -/
theorem others_step (hh : h < n) (hc : c < n) (hne : c ≠ h) :
    others (Function.update a h (a c)) n c = others a n h := by
  have hcons := contents_eq_cons (a := Function.update a h (a c)) hh
  rw [contents_eq_cons hc, Function.update_self, Function.update_of_ne hne, others_update hh,
    Multiset.cons_inj_right] at hcons
  exact hcons

/-- Filling the hole adds the value. -/
theorem contents_fill (hh : h < n) (y : α) :
    contents (Function.update a h y) n = y ::ₘ others a n h := by
  rw [contents_eq_cons hh, Function.update_self, others_update hh]

/-- A hole behind the last entry leaves all of them. -/
theorem others_last : others a (n + 1) n = contents a n := by
  rw [others, contents, Multiset.range_succ, Multiset.erase_cons_head]

theorem contents_congr {b : Nat → α} (hab : ∀ i, i < n → b i = a i) : contents b n = contents a n :=
  Multiset.map_congr rfl fun i hi => hab i (Multiset.mem_range.mp hi)

end HoleHeap
