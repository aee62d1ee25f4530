-- SUMMARY: Round-robin choice among the places of a ring, some of which die: the distance from the counter, and that between two turns of one place every other has one.
import LinuxLearning.Common.Run

/-!
# Round robin

A counter goes round `n` places. A turn goes to the living place nearest to the counter, which
then stands behind it. Places may die at any time and stay dead.
-/

namespace RoundRobin

open Transition

/-- How far place `i` is from the counter `c`, going up and round. -/
def dist (n c i : Nat) : Nat :=
  if c ≤ i then i - c else i + n - c

structure State where
  counter : Nat
  alive : Nat → Prop

/-- A turn of a place, or deaths. -/
inductive Step (n : Nat) : State → Option Nat → State → Prop where
  | turn {s : State} {i : Nat} : i < n → s.alive i →
      (∀ j, j < n → s.alive j → dist n s.counter i ≤ dist n s.counter j) →
      Step n s (some i) { s with counter := (i + 1) % n }
  | die {s : State} {alive : Nat → Prop} : (∀ j, alive j → s.alive j) →
      Step n s none { s with alive := alive }

variable {n c i j k : Nat} {s t : State} {es : List (Option Nat)} {e : Option Nat}

theorem succ_mod (hi : i < n) : (i + 1) % n = if i + 1 = n then 0 else i + 1 := by
  split
  · rename_i h
    rw [h, Nat.mod_self]
  · exact Nat.mod_eq_of_lt (by omega)

theorem add_mod (hc : c < n) (hk : k < n) : (c + k) % n = if c + k < n then c + k else c + k - n := by
  split
  · rename_i h
    exact Nat.mod_eq_of_lt h
  · rw [Nat.mod_eq_sub_mod (by omega), Nat.mod_eq_of_lt (by omega)]

theorem dist_lt (hc : c < n) (hi : i < n) : dist n c i < n := by
  unfold dist
  split <;> omega

theorem add_dist (hc : c < n) (hi : i < n) : (c + dist n c i) % n = i := by
  rw [add_mod hc (dist_lt hc hi)]
  unfold dist
  split <;> split <;> omega

theorem dist_add (hc : c < n) (hk : k < n) : dist n c ((c + k) % n) = k := by
  rw [add_mod hc hk]
  unfold dist
  split <;> split <;> omega

/-- A turn of `i` brings the places behind it nearer. -/
theorem dist_next (hc : c < n) (hi : i < n) (hj : j < n) (hlt : dist n c i < dist n c j) :
    dist n ((i + 1) % n) j = dist n c j - dist n c i - 1 := by
  rw [succ_mod hi]
  unfold dist at hlt ⊢
  split at hlt <;> split at hlt <;> split <;> split <;> omega

/-- After its turn a place is the farthest. -/
theorem dist_self (hi : i < n) : dist n ((i + 1) % n) i = n - 1 := by
  rw [succ_mod hi]
  unfold dist
  split <;> split <;> omega

theorem dist_injective (hc : c < n) (hi : i < n) (hj : j < n) (h : dist n c i = dist n c j) : i = j := by
  rw [← add_dist hc hi, h, add_dist hc hj]

theorem Step.counter_lt (h : Step n s e t) (hs : s.counter < n) : t.counter < n := by
  cases h with
  | turn hi _ _ => exact Nat.mod_lt _ (by omega)
  | die _ => exact hs

theorem Step.alive (h : Step n s e t) (hj : t.alive j) : s.alive j := by
  cases h with
  | turn _ _ _ => exact hj
  | die hsub => exact hsub j hj

theorem run_alive (hrun : Run (Step n) s es t) (hj : t.alive j) : s.alive j := by
  induction hrun with
  | nil s => exact hj
  | cons h _ ih => exact h.alive (ih hj)

/-- Without a turn of `i`, `j` has none if it is behind `i`, and at most one, which puts it behind
    `i`, if it is before. -/
theorem run_between (hi : i < n) (hj : j < n) (hij : i ≠ j) (hrun : Run (Step n) s es t)
    (hs : s.counter < n) (hai : t.alive i) (haj : t.alive j) (hnot : some i ∉ es) :
    (dist n s.counter i < dist n s.counter j →
      es.count (some j) = 0 ∧ dist n t.counter i < dist n t.counter j) ∧
    (dist n s.counter j < dist n s.counter i →
      es.count (some j) = 0 ∧ dist n t.counter j < dist n t.counter i ∨
      es.count (some j) = 1 ∧ dist n t.counter i < dist n t.counter j) := by
  induction hrun with
  | nil s => exact ⟨fun h => ⟨rfl, h⟩, fun h => .inl ⟨rfl, h⟩⟩
  | @cons s u t e es hstep hrun ih =>
    rw [List.mem_cons, not_or] at hnot
    have ih := ih (hstep.counter_lt hs) hai haj hnot.2
    have hui := run_alive hrun hai
    have huj := run_alive hrun haj
    cases hstep with
    | die _ => simpa using ih
    | @turn k hk _ hnear =>
      have hki : k ≠ i := fun h => hnot.1 (congrArg some h.symm)
      have hnearer : dist n s.counter k < dist n s.counter i :=
        lt_of_le_of_ne (hnear i hi hui) fun h => hki (dist_injective hs hk hi h)
      have hcounti := dist_next hs hk hi hnearer
      by_cases hkj : k = j
      · -- the turn of `j`: it is now the farthest
        subst hkj
        have hself := dist_self hj
        have hlt := dist_lt (Nat.mod_lt (k + 1) (Nat.zero_lt_of_lt hk)) hi
        refine ⟨fun h => absurd hnearer (Nat.lt_asymm h), fun _ => .inr ?_⟩
        obtain ⟨hzero, hdist⟩ := ih.1 (by
          simp only [hcounti, hself]
          have := dist_lt hs hi
          omega)
        exact ⟨by rw [List.count_cons_self, hzero], hdist⟩
      · have hnearerj : dist n s.counter k < dist n s.counter j :=
          lt_of_le_of_ne (hnear j hj huj) fun h => hkj (dist_injective hs hk hj h)
        have hcountj := dist_next hs hk hj hnearerj
        have hcons : (some k :: es).count (some j) = es.count (some j) :=
          List.count_cons_of_ne (by simpa using hkj)
        rw [hcons]
        refine ⟨fun h => ih.1 ?_, fun h => ih.2 ?_⟩
        · simp only [hcounti, hcountj]
          omega
        · simp only [hcounti, hcountj]
          omega

/-- Between two turns of a place, every other one that stays alive has one turn. -/
theorem run_fair {mid : List (Option Nat)} (hrun : Run (Step n) s (some i :: (mid ++ [some i])) t)
    (hnot : some i ∉ mid) (hj : j < n) (hij : j ≠ i) (haj : t.alive j) : mid.count (some j) = 1 := by
  obtain ⟨u, hfirst, hrest⟩ := Run.cons_iff.mp hrun
  obtain ⟨v, hmid, hend⟩ := Run.append_iff.mp hrest
  obtain ⟨t', hlast, hnil⟩ := Run.cons_iff.mp hend
  obtain rfl := Run.nil_iff.mp hnil
  have hvj := hlast.alive haj
  cases hfirst with
  | turn hi _ _ =>
    have hu : (i + 1) % n < n := Nat.mod_lt _ (by omega)
    cases hlast with
    | turn _ hvi hnear =>
      have hjlt : dist n ((i + 1) % n) j < dist n ((i + 1) % n) i := by
        have hlt := dist_lt hu hj
        have hne : dist n ((i + 1) % n) j ≠ dist n ((i + 1) % n) i := fun h => hij (dist_injective hu hj hi h)
        rw [dist_self hi] at hne ⊢
        omega
      rcases (run_between hi hj hij.symm hmid hu hvi hvj hnot).2 hjlt with ⟨-, hlt⟩ | ⟨hone, -⟩
      · exact absurd (hnear j hj hvj) (Nat.not_le_of_lt hlt)
      · exact hone

end RoundRobin
