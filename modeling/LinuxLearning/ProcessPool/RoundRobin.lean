-- SUMMARY: The round-robin search finds the next live slot in cyclic order, within one round.
import LinuxLearning.ProcessPool.RunParent

/-!
# The round-robin search

The search starts at the counter and goes round once. `live` and `cyclic` give the slots
by their distance from the counter.
-/

namespace ProcessPool

open Memory

namespace Parent

variable {sub : List Process} {c i k n : Nat}

/-- Slot `i` has a child that has not been reaped. -/
def Live (sub : List Process) (i : Nat) : Prop :=
  ∃ p, sub[i]? = some p ∧ p.pid ≠ -1

/-- Slot `i` has a child that has been reaped. -/
def Dead (sub : List Process) (i : Nat) : Prop :=
  ∃ p, sub[i]? = some p ∧ p.pid = -1

theorem live_or_dead (hi : i < sub.length) : Live sub i ∨ Dead sub i := by
  have hget : sub[i]? = some sub[i] := List.getElem?_eq_getElem hi
  by_cases hp : sub[i].pid = -1
  · exact .inr ⟨_, hget, hp⟩
  · exact .inl ⟨_, hget, hp⟩

theorem slot_ok {p : Process} (h : sub[i]? = some p) : slot sub i = .ok p := by
  simp [slot, h]

/-- The first `k` slots from `c` on, in cyclic order, are dead. -/
def DeadUpTo (sub : List Process) (c k : Nat) : Prop :=
  ∀ j, j < k → Dead sub ((c + j) % sub.length)

/-- Every slot is at some distance from the counter. -/
theorem exists_distance (hc : c < sub.length) (hi : i < sub.length) :
    ∃ j, j < sub.length ∧ (c + j) % sub.length = i := by
  rcases Nat.lt_or_ge i c with hlt | hge
  · refine ⟨i + sub.length - c, by omega, ?_⟩
    rw [show c + (i + sub.length - c) = i + sub.length by omega, Nat.add_mod_right,
      Nat.mod_eq_of_lt hi]
  · exact ⟨i - c, by omega, by rw [Nat.add_sub_cancel' hge, Nat.mod_eq_of_lt hi]⟩

theorem DeadUpTo.all (hc : c < sub.length) (h : DeadUpTo sub c sub.length) :
    ∀ i, i < sub.length → Dead sub i := by
  intro i hi
  obtain ⟨j, hj, rfl⟩ := exists_distance hc hi
  exact h j hj

/-- What the search returns: the first live slot from the counter on, or the counter if
    every slot is dead. -/
def Found (sub : List Process) (c i : Nat) : Prop :=
  (∃ k, k < sub.length ∧ i = (c + k) % sub.length ∧ Live sub i ∧ DeadUpTo sub c k) ∨
  (i = c ∧ ∀ j, j < sub.length → Dead sub j)

theorem searchLoop_ok (hc : c < sub.length) (hk : k < sub.length) (hdead : DeadUpTo sub c k)
    (hn : sub.length ≤ n + k) :
    ∃ i, searchLoop sub c n ((c + k) % sub.length) = .ok i ∧ Found sub c i := by
  induction n generalizing k with
  | zero => omega
  | succ n ih =>
    have hlt : (c + k) % sub.length < sub.length := Nat.mod_lt _ (by omega)
    rcases live_or_dead hlt with ⟨p, hp, hlive⟩ | ⟨p, hp, hdied⟩
    · exact ⟨_, by simp [searchLoop, slot_ok hp, hlive], .inl ⟨k, hk, rfl, ⟨p, hp, hlive⟩, hdead⟩⟩
    have hdead' : DeadUpTo sub c (k + 1) := by
      intro j hj
      rcases Nat.lt_succ_iff_lt_or_eq.mp hj with hj | rfl
      · exact hdead j hj
      · exact ⟨p, hp, hdied⟩
    have hnext : ((c + k) % sub.length + 1) % sub.length = (c + (k + 1)) % sub.length := by
      rw [Nat.mod_add_mod, Nat.add_assoc]
    by_cases hback : (c + (k + 1)) % sub.length = c
    · -- the round is complete
      have hfull : k + 1 = sub.length := by
        by_contra hne
        have hk' : k + 1 < sub.length := by omega
        rcases Nat.lt_or_ge (c + (k + 1)) sub.length with h | h
        · rw [Nat.mod_eq_of_lt h] at hback
          omega
        · rw [Nat.mod_eq_sub_mod h, Nat.mod_eq_of_lt (by omega)] at hback
          omega
      refine ⟨c, ?_, .inr ⟨rfl, (hfull ▸ hdead').all hc⟩⟩
      simp [searchLoop, slot_ok hp, hdied, hnext, hback]
    · have hk' : k + 1 < sub.length := by
        rcases Nat.lt_or_ge (k + 1) sub.length with h | h
        · exact h
        · rw [show k + 1 = sub.length by omega, Nat.add_mod_right, Nat.mod_eq_of_lt hc] at hback
          exact absurd rfl hback
      obtain ⟨i, hrun, hfound⟩ := ih hk' hdead' (by omega)
      refine ⟨i, ?_, hfound⟩
      rw [← hrun]
      simp [searchLoop, slot_ok hp, hdied, hnext, hback]

/-- One round is enough for the search. -/
theorem search_ok (hc : c < sub.length) :
    ∃ i, searchLoop sub c sub.length c = .ok i ∧ Found sub c i := by
  have h := searchLoop_ok (k := 0) (n := sub.length) hc (by omega) (fun j hj => absurd hj (by omega))
    (by omega)
  rwa [Nat.add_zero, Nat.mod_eq_of_lt hc] at h

/-- An event of the listening socket: a notification for the next live child, or the
    parent stops if there is none. -/
theorem onListen_ok {st : Parent} (hc : st.subProcessCounter < st.subProcess.length) :
    (∃ i, i < st.subProcess.length ∧ Live st.subProcess i ∧ Found st.subProcess st.subProcessCounter i ∧
      onListen st = .ok ({ st with subProcessCounter := (i + 1) % st.subProcess.length }, [.send i], false)) ∨
    ((∀ i, i < st.subProcess.length → Dead st.subProcess i) ∧
      onListen st = .ok ({ st with stop := true }, [], true)) := by
  obtain ⟨i, hrun, hfound⟩ := search_ok hc
  rcases hfound with ⟨k, hk, hi, ⟨p, hp, hlive⟩, hdead⟩ | ⟨rfl, hdead⟩
  · refine .inl ⟨i, (List.getElem?_eq_some_iff.mp hp).1, ⟨p, hp, hlive⟩,
      .inl ⟨k, hk, hi, ⟨p, hp, hlive⟩, hdead⟩, ?_⟩
    simp [onListen, hrun, slot_ok hp, hlive]
  · obtain ⟨p, hp, hdied⟩ := hdead _ hc
    refine .inr ⟨hdead, ?_⟩
    simp [onListen, hrun, slot_ok hp, hdied]

end Parent

end ProcessPool
