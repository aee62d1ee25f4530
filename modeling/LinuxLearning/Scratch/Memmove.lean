-- SUMMARY: _memcpy and _memmove over 64-bit addresses, and exactly which calls of _memmove move their bytes.
import LinuxLearning.Common.CellCopy
import Mathlib.Data.BitVec

/-!
# Copying memory

A byte is copied by one load and one store, and the memory keeps a list of the addresses
they were done at. An address is a 64-bit word, and so is a count; the null pointer is `0`.
-/

namespace Scratch

open CellCopy

abbrev Addr := BitVec 64

structure Ram where
  mem : Addr → UInt8
  touched : List Addr

namespace Ram

variable {r r' : Ram} {dest src count a : Addr} {n : Nat}

/-- `*tmp_dest = *tmp_src`. -/
def copyByte (r : Ram) (p : Addr × Addr) : Ram where
  mem := copy r.mem p
  touched := p.1 :: p.2 :: r.touched

-- ---------------------------------------------------------------------------
-- The two functions
-- ---------------------------------------------------------------------------

/-- `while(count--) *tmp_dest++ = *tmp_src++;` -/
def copyUp : Nat → Addr → Addr → Ram → Ram
  | 0, _, _, r => r
  | n + 1, tmpDest, tmpSrc, r => copyUp n (tmpDest + 1) (tmpSrc + 1) (r.copyByte (tmpDest, tmpSrc))

/-- `while(count--) *tmp_dest-- = *tmp_src--;` -/
def copyDown : Nat → Addr → Addr → Ram → Ram
  | 0, _, _, r => r
  | n + 1, tmpDest, tmpSrc, r => copyDown n (tmpDest - 1) (tmpSrc - 1) (r.copyByte (tmpDest, tmpSrc))

/-- The outcome is `none` where the assertion fails. -/
def memcpy (r : Ram) (dest src count : Addr) : Option (Ram × Addr) :=
  if src ≠ 0 ∧ dest ≠ 0 then
    let tmpDest := dest
    let tmpSrc := src
    some (copyUp count.toNat tmpDest tmpSrc r, dest)
  else
    none

def memmove (r : Ram) (dest src count : Addr) : Option (Ram × Addr) :=
  if src ≠ 0 ∧ dest ≠ 0 then
    let tmpDest := dest
    let tmpSrc := src
    if dest ≤ src then
      some (copyUp count.toNat tmpDest tmpSrc r, dest)
    else
      -- the two pointers that move to the end are not the ones the loop uses
      let dest := dest + (count - 1)
      let _src := src + (count - 1)
      some (copyDown count.toNat tmpDest tmpSrc r, dest)
  else
    none

-- ---------------------------------------------------------------------------
-- What they are for
-- ---------------------------------------------------------------------------

/-- The byte is one of the `count` bytes from `base` on. -/
def InRange (base count a : Addr) : Prop :=
  ∃ i < count.toNat, a = base + BitVec.ofNat 64 i

/-- The range ends before the address space does. -/
def Region (base count : Addr) : Prop :=
  base.toNat + count.toNat ≤ 2 ^ 64

instance (base count : Addr) : Decidable (Region base count) :=
  Nat.decLe (base.toNat + count.toNat) (2 ^ 64)

/-- The destination holds what the source held, nothing else has changed, and no byte outside
    the two ranges has been touched. -/
structure Moved (r r' : Ram) (dest src count : Addr) : Prop where
  copied : ∀ i < count.toNat, r'.mem (dest + BitVec.ofNat 64 i) = r.mem (src + BitVec.ofNat 64 i)
  frame : ∀ a, ¬ InRange dest count a → r'.mem a = r.mem a
  touched : ∀ a ∈ r'.touched, a ∈ r.touched ∨ InRange dest count a ∨ InRange src count a

/-- What `_memmove` is to do: move the bytes and return `dest`, as `_memcpy` does where the
    ranges are apart. -/
def Moves (r : Ram) (dest src count : Addr) : Prop :=
  ∃ r', r.memmove dest src count = some (r', dest) ∧ Moved r r' dest src count ∧
    ((∀ a, InRange dest count a → ¬ InRange src count a) →
      ∃ q, r.memcpy dest src count = some (q, dest) ∧ q.mem = r'.mem)

-- ---------------------------------------------------------------------------
-- The forward loop
-- ---------------------------------------------------------------------------

/-- The copies of the forward loop. -/
def upward (dest src : Addr) (n : Nat) : List (Addr × Addr) :=
  (List.range n).map fun i => (dest + BitVec.ofNat 64 i, src + BitVec.ofNat 64 i)

theorem succ_offset (p : Addr) (i : Nat) : p + BitVec.ofNat 64 (i + 1) = p + 1 + BitVec.ofNat 64 i := by
  rw [BitVec.ofNat_add, BitVec.add_comm (BitVec.ofNat 64 i), ← BitVec.add_assoc]
  rfl

theorem upward_succ (dest src : Addr) (n : Nat) :
    upward dest src (n + 1) = (dest, src) :: upward (dest + 1) (src + 1) n := by
  have hzero : ∀ p : Addr, p + BitVec.ofNat 64 0 = p := fun p => BitVec.add_zero p
  simp only [upward, List.range_succ_eq_map, List.map_cons, List.map_map, Function.comp_def, succ_offset, hzero]

theorem mem_copyUp : (copyUp n dest src r).mem = copyAll r.mem (upward dest src n) := by
  induction n generalizing dest src r with
  | zero => rfl
  | succ n ih => rw [copyUp, ih, upward_succ, copyAll_cons]; rfl

theorem touched_copyUp (h : a ∈ (copyUp n dest src r).touched) :
    a ∈ r.touched ∨ ∃ p ∈ upward dest src n, a = p.1 ∨ a = p.2 := by
  induction n generalizing dest src r with
  | zero => exact .inl h
  | succ n ih =>
    rw [upward_succ]
    rcases ih h with hr | ⟨p, hp, ha⟩
    · rcases hr with _ | ⟨_, _ | ⟨_, hr⟩⟩
      · exact .inr ⟨_, List.mem_cons_self, .inl rfl⟩
      · exact .inr ⟨_, List.mem_cons_self, .inr rfl⟩
      · exact .inl hr
    · exact .inr ⟨p, List.mem_cons_of_mem _ hp, ha⟩

/-- Going up is in good order when the destination is not above the source. -/
theorem upward_orderly (hle : dest ≤ src) (hsrc : Region src count) :
    Orderly (upward dest src count.toNat) := by
  refine List.pairwise_map.mpr (List.pairwise_lt_range.imp_of_mem fun {i j} _ hj hij => ?_)
  have hj := List.mem_range.mp hj
  unfold Region at hsrc
  rw [BitVec.le_def] at hle
  constructor <;> bv_omega

/-- Where the loop copies in good order, it moves the bytes. -/
theorem Moved.ofUpward (h : Orderly (upward dest src count.toNat)) :
    Moved r (copyUp count.toNat dest src r) dest src count where
  copied i hi := by
    rw [mem_copyUp]
    exact h.copied _ (List.mem_map_of_mem (List.mem_range.mpr hi))
  frame a ha := by
    rw [mem_copyUp]
    refine copyAll_frame fun p hp heq => ha ?_
    obtain ⟨i, hi, rfl⟩ := List.mem_map.mp hp
    exact ⟨i, List.mem_range.mp hi, heq⟩
  touched a ha := by
    rcases touched_copyUp ha with hr | ⟨p, hp, heq⟩
    · exact .inl hr
    · obtain ⟨i, hi, rfl⟩ := List.mem_map.mp hp
      rw [List.mem_range] at hi
      exact .inr (heq.imp (⟨i, hi, ·⟩) (⟨i, hi, ·⟩))

-- ---------------------------------------------------------------------------
-- The calls that move their bytes
-- ---------------------------------------------------------------------------

theorem memcpy_eq (hsrc : src ≠ 0) (hdest : dest ≠ 0) :
    r.memcpy dest src count = some (copyUp count.toNat dest src r, dest) :=
  if_pos ⟨hsrc, hdest⟩

theorem memmove_eq_memcpy (h : dest ≤ src ∨ count = 1) : r.memmove dest src count = r.memcpy dest src count := by
  unfold memmove memcpy
  by_cases hle : dest ≤ src
  · simp only [if_pos hle]
  · obtain rfl := h.resolve_left hle
    have hend : dest + (1 - 1) = dest := BitVec.add_zero dest
    simp only [if_neg hle, hend]
    rfl

/-- Behind the assertion the function returns `dest` only where the forward loop copies too. -/
theorem memmove_returns (h : r.memmove dest src count = some (r', dest)) : dest ≤ src ∨ count = 1 := by
  unfold memmove at h
  split at h
  · by_cases hle : dest ≤ src
    · exact .inl hle
    · rw [if_neg hle] at h
      have hret : dest + (count - 1) = dest := congrArg Prod.snd (Option.some.inj h)
      exact .inr (by bv_omega)
  · cases h

/-- A byte is in good order on its own. -/
theorem upward_one_orderly : Orderly (upward dest src 1) :=
  List.pairwise_singleton _ _

/-- `_memmove` moves its bytes exactly when the destination is not above the source, or there is
    one byte. -/
theorem memmove_moves_iff (r : Ram) (dest src count : Addr) (hsrc : Region src count) :
    r.Moves dest src count ↔ (src ≠ 0 ∧ dest ≠ 0) ∧ (dest ≤ src ∨ count = 1) := by
  constructor
  · rintro ⟨r', hrun, -⟩
    refine ⟨?_, memmove_returns hrun⟩
    by_contra hnull
    rw [memmove, if_neg hnull] at hrun
    cases hrun
  · rintro ⟨⟨hs, hd⟩, h⟩
    have hrun : r.memcpy dest src count = some (copyUp count.toNat dest src r, dest) := memcpy_eq hs hd
    have horder : Orderly (upward dest src count.toNat) := by
      rcases h with hle | rfl
      · exact upward_orderly hle hsrc
      · exact upward_one_orderly
    exact ⟨_, (memmove_eq_memcpy h).trans hrun, .ofUpward horder, fun _ => ⟨_, hrun, rfl⟩⟩

/-- Two ranges that overlap, the destination below. -/
theorem memmove_moves_iff_down : (⟨fun a => a.toNat.toUInt8, []⟩ : Ram).Moves 16 17 4 :=
  (memmove_moves_iff _ 16 17 4 (by decide)).mpr ⟨by decide, .inl (by decide)⟩

/-- Two ranges that are apart, the destination above: the byte below each of them is copied,
    and the end of the destination is returned. -/
theorem memmove_above_fails :
    ¬ (⟨fun a => a.toNat.toUInt8, []⟩ : Ram).Moves 32 16 2 ∧
      (∃ r', (⟨fun a => a.toNat.toUInt8, []⟩ : Ram).memmove 32 16 2 = some (r', 33) ∧
        r'.mem 31 = 15 ∧ r'.mem 33 = 33 ∧ r'.touched = [31, 15, 32, 16]) := by
  refine ⟨fun h => ?_, _, rfl, by decide, by decide, by decide⟩
  obtain ⟨-, hle | hone⟩ := (memmove_moves_iff _ 32 16 2 (by decide)).mp h
  · exact absurd hle (by decide)
  · exact absurd hone (by decide)

end Ram

end Scratch
