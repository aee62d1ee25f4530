-- SUMMARY: Runs of a labelled transition relation: composition, the invariant rule, simulation, and sums over the parties of a system.
import Mathlib.Algebra.BigOperators.Group.Finset.Basic

/-!
# Runs

`Run Step s es t` is a run from `s` to `t` whose steps have the labels `es`. The labels
are what a run does: the calls it makes, and what they return.
-/

namespace Transition

variable {σ ε σ' ε' : Type} {Step : σ → ε → σ → Prop} {Step' : σ' → ε' → σ' → Prop}
  {s t u : σ} {e : ε} {es fs : List ε}

inductive Run (Step : σ → ε → σ → Prop) : σ → List ε → σ → Prop where
  | nil (s : σ) : Run Step s [] s
  | cons {s t u : σ} {e : ε} {es : List ε} : Step s e t → Run Step t es u → Run Step s (e :: es) u

namespace Run

theorem nil_iff : Run Step s [] t ↔ s = t := by
  constructor
  · intro h
    cases h
    rfl
  · rintro rfl
    exact .nil _

theorem cons_iff : Run Step s (e :: es) u ↔ ∃ t, Step s e t ∧ Run Step t es u := by
  constructor
  · intro h
    cases h with
    | cons hstep hrun => exact ⟨_, hstep, hrun⟩
  · rintro ⟨t, hstep, hrun⟩
    exact .cons hstep hrun

theorem append_iff : Run Step s (es ++ fs) u ↔ ∃ t, Run Step s es t ∧ Run Step t fs u := by
  induction es generalizing s with
  | nil => simp [nil_iff]
  | cons e es ih =>
    simp only [List.cons_append, cons_iff, ih]
    constructor
    · rintro ⟨t, hstep, v, hes, hfs⟩
      exact ⟨v, ⟨t, hstep, hes⟩, hfs⟩
    · rintro ⟨v, ⟨t, hstep, hes⟩, hfs⟩
      exact ⟨t, hstep, v, hes, hfs⟩

theorem snoc (hrun : Run Step s es t) (hstep : Step t e u) : Run Step s (es ++ [e]) u :=
  append_iff.mpr ⟨t, hrun, .cons hstep (.nil u)⟩

/-- A run can be computed where a step can. -/
theorem of_foldlM {step : σ → ε → Option σ} (hstep : ∀ s e t, step s e = some t → Step s e t)
    (h : es.foldlM step s = some t) : Run Step s es t := by
  induction es generalizing s with
  | nil =>
    cases h
    exact .nil _
  | cons e es ih =>
    rw [List.foldlM_cons] at h
    obtain ⟨u, hu, hes⟩ := Option.bind_eq_some_iff.mp h
    exact .cons (hstep s e u hu) (ih hes)

theorem and_labels {P : ε → Prop} (hrun : Run Step s es t) (hes : ∀ e ∈ es, P e) :
    Run (fun s e t => Step s e t ∧ P e) s es t := by
  induction hrun with
  | nil s => exact .nil s
  | cons h _ ih =>
    obtain ⟨he, hes⟩ := List.forall_mem_cons.mp hes
    exact .cons ⟨h, he⟩ (ih hes)

/-- A run whose steps meet a condition is a run. -/
theorem of_and {A : σ → ε → σ → Prop} (hrun : Run (fun s e t => Step s e t ∧ A s e t) s es t) : Run Step s es t := by
  induction hrun with
  | nil s => exact .nil s
  | cons h _ ih => exact .cons h.1 ih

/-- What every step preserves, every run preserves. -/
theorem invariant {I : σ → Prop} (hstep : ∀ s e t, I s → Step s e t → I t)
    (hrun : Run Step s es t) (hs : I s) : I t := by
  induction hrun with
  | nil s => exact hs
  | cons h _ ih => exact ih (hstep _ _ _ hs h)

/-- What every step preserves of a state and the labels up to it, every run preserves. -/
theorem history {I : List ε → σ → Prop} (hstep : ∀ es s e t, I es s → Step s e t → I (es ++ [e]) t)
    (hrun : Run Step s es t) (hs : I [] s) : I es t := by
  have hfrom : ∀ fs, I fs s → I (fs ++ es) t := by
    clear hs
    induction hrun with
    | nil s => exact fun fs hs => by simpa using hs
    | cons h _ ih =>
      intro fs hs
      have ht := ih _ (hstep fs _ _ _ hs h)
      rwa [List.append_assoc, List.singleton_append] at ht
  exact hfrom [] hs

/-- Two conditions on the steps that agree where the invariant holds have the same runs. -/
theorem congr {I : σ → Prop} {A B : σ → ε → σ → Prop}
    (hinv : ∀ s e t, I s → Step s e t → A s e t → I t)
    (hiff : ∀ s e t, I s → Step s e t → (A s e t ↔ B s e t)) (hs : I s) :
    Run (fun s e t => Step s e t ∧ A s e t) s es t ↔ Run (fun s e t => Step s e t ∧ B s e t) s es t := by
  induction es generalizing s with
  | nil => simp only [nil_iff]
  | cons e es ih =>
    simp only [cons_iff]
    constructor
    · rintro ⟨u, ⟨hstep, ha⟩, hrun⟩
      exact ⟨u, ⟨hstep, (hiff _ _ _ hs hstep).mp ha⟩, (ih (hinv _ _ _ hs hstep ha)).mp hrun⟩
    · rintro ⟨u, ⟨hstep, hb⟩, hrun⟩
      have ha := (hiff _ _ _ hs hstep).mpr hb
      exact ⟨u, ⟨hstep, ha⟩, (ih (hinv _ _ _ hs hstep ha)).mpr hrun⟩

/-- A condition on the steps, told from the labels before them where the invariant holds, is one on
    the labels of the run. -/
theorem congr_history {I : List ε → σ → Prop} {F : List ε → ε → Prop} {A : σ → ε → σ → Prop}
    (hinv : ∀ fs s e t, I fs s → Step s e t → F fs e → I (fs ++ [e]) t)
    (hiff : ∀ fs s e t, I fs s → Step s e t → (F fs e ↔ A s e t)) (hs : I [] s) :
    Run (fun s e t => Step s e t ∧ A s e t) s es t ↔
      Run Step s es t ∧ ∀ before e after, es = before ++ e :: after → F before e := by
  have hfrom : ∀ es fs s, I fs s → (Run (fun s e t => Step s e t ∧ A s e t) s es t ↔
      Run Step s es t ∧ ∀ before e after, es = before ++ e :: after → F (fs ++ before) e) := by
    intro es
    induction es with
    | nil => exact fun fs s _ => by simp [nil_iff]
    | cons e es ih =>
      intro fs s hs
      have hlabels : (∀ before e' after, e :: es = before ++ e' :: after → F (fs ++ before) e') ↔
          F fs e ∧ ∀ before e' after, es = before ++ e' :: after → F (fs ++ [e] ++ before) e' := by
        constructor
        · intro h
          refine ⟨by simpa using h [] e es rfl, fun before e' after heq => ?_⟩
          simpa using h (e :: before) e' after (by rw [heq]; rfl)
        · rintro ⟨he, hes⟩ before e' after heq
          cases before with
          | nil =>
            obtain ⟨rfl, -⟩ := List.cons.inj heq
            simpa using he
          | cons e₁ before =>
            obtain ⟨rfl, hes'⟩ := List.cons.inj heq
            simpa using hes before e' after hes'
      simp only [cons_iff, hlabels]
      constructor
      · rintro ⟨u, ⟨hstep, ha⟩, hrun⟩
        have he := (hiff fs _ _ _ hs hstep).mpr ha
        obtain ⟨hrun', hes⟩ := (ih _ _ (hinv fs _ _ _ hs hstep he)).mp hrun
        exact ⟨⟨u, hstep, hrun'⟩, he, hes⟩
      · rintro ⟨⟨u, hstep, hrun⟩, he, hes⟩
        exact ⟨u, ⟨hstep, (hiff fs _ _ _ hs hstep).mp he⟩, (ih _ _ (hinv fs _ _ _ hs hstep he)).mpr ⟨hrun, hes⟩⟩
  simpa using hfrom es [] s hs

/-- If a quantity grows in the bad steps and only there, it has grown in a run exactly if
    the run has a bad step. -/
theorem counted (I : σ → Nat → Prop) (Bad : σ → ε → Prop)
    (hstep : ∀ s e t k, I s k → Step s e t → ∃ d, I t (k + d) ∧ (d = 0 ↔ ¬ Bad s e))
    (hunique : ∀ s k k', I s k → I s k' → k = k') {k : Nat} (hrun : Run Step s es t) (hs : I s k) :
    ∃ d, I t (k + d) ∧ (d = 0 ↔ Run (fun s e t => Step s e t ∧ ¬ Bad s e) s es t) := by
  have hgood : ∀ {s es t}, Run (fun s e t => Step s e t ∧ ¬ Bad s e) s es t → I s k → I t k := by
    intro s es t hrun hs
    refine invariant (I := fun s => I s k) (fun s e t hs h => ?_) hrun hs
    obtain ⟨d, ht, hd⟩ := hstep s e t k hs h.1
    rwa [hd.mpr h.2] at ht
  have hcount : ∀ {k}, I s k →
      ∃ d, I t (k + d) ∧ (d = 0 → Run (fun s e t => Step s e t ∧ ¬ Bad s e) s es t) := by
    clear hs hgood
    induction hrun with
    | nil s => exact fun hs => ⟨0, hs, fun _ => .nil s⟩
    | cons h _ ih =>
      intro k hs
      obtain ⟨d, ht, hd⟩ := hstep _ _ _ _ hs h
      obtain ⟨d', hu, hd'⟩ := ih ht
      refine ⟨d + d', Nat.add_assoc .. ▸ hu, fun hzero => ?_⟩
      rw [Nat.add_eq_zero_iff] at hzero
      exact .cons ⟨h, hd.mp hzero.1⟩ (hd' hzero.2)
  obtain ⟨d, ht, hd⟩ := hcount hs
  refine ⟨d, ht, hd, fun hrun' => ?_⟩
  have := hunique t _ _ ht (hgood hrun' hs)
  omega

/-- What the steps of a run take from a load is covered by what it was and what they add. -/
theorem balance {I : σ → Prop} (load : σ → Nat) (gain loss : ε → Bool)
    (hstep : ∀ s e t, I s → Step s e t → I t ∧ load t + (loss e).toNat ≤ load s + (gain e).toNat)
    (hrun : Run Step s es t) (hs : I s) : load t + es.countP loss ≤ load s + es.countP gain := by
  induction hrun with
  | nil s => exact Nat.le_refl _
  | @cons s t u e es h _ ih =>
    obtain ⟨ht, hle⟩ := hstep s e t hs h
    have hes := ih ht
    have hcount : ∀ p : ε → Bool, (e :: es).countP p = es.countP p + (p e).toNat := by
      intro p
      rw [List.countP_cons]
      cases p e <;> rfl
    rw [hcount, hcount]
    omega

/-- If every step from a good state is one of the abstract system and leads to a good
    state, so is every run. -/
theorem simulate {I : σ → Prop} (abs : σ → σ') (label : ε → ε')
    (hstep : ∀ s e t, I s → Step s e t → Step' (abs s) (label e) (abs t) ∧ I t)
    (hrun : Run Step s es t) (hs : I s) : Run Step' (abs s) (es.map label) (abs t) ∧ I t := by
  induction hrun with
  | nil s => exact ⟨.nil _, hs⟩
  | cons h _ ih =>
    obtain ⟨h', ht⟩ := hstep _ _ _ hs h
    obtain ⟨hrun', hu⟩ := ih ht
    exact ⟨.cons h' hrun', hu⟩

end Run

/-- What holds of every element of two lists and those before it, holds of their concatenation. -/
theorem forall_split_append {α : Type} {P : List α → α → Prop} {l r : List α}
    (hl : ∀ before e after, l = before ++ e :: after → P before e)
    (hr : ∀ before e after, r = before ++ e :: after → P (l ++ before) e) :
    ∀ before e after, l ++ r = before ++ e :: after → P before e := by
  intro before e after heq
  rcases List.append_eq_append_iff.mp heq with ⟨mid, rfl, hmid⟩ | ⟨mid, hlmid, hmid⟩
  · exact hr mid e after hmid
  · cases mid with
    | nil =>
      rw [List.append_nil] at hlmid
      rw [List.nil_append] at hmid
      subst hlmid
      simpa using hr [] e after hmid.symm
    | cons e' mid =>
      obtain ⟨rfl, -⟩ := List.cons.inj hmid
      exact hl before _ mid hlmid

/-- When one party changes, a sum over the parties changes by what it does to that party. -/
theorem sum_update {ι α M : Type} [DecidableEq ι] [AddCommMonoid M] (f : α → M) (parties : ι → α) (c : α)
    {S : Finset ι} {i : ι} (hi : i ∈ S) :
    ∑ j ∈ S, f (Function.update parties i c j) + f (parties i) = ∑ j ∈ S, f (parties j) + f c := by
  have hrest : ∑ j ∈ S.erase i, f (Function.update parties i c j) = ∑ j ∈ S.erase i, f (parties j) :=
    Finset.sum_congr rfl fun j hj => by rw [Function.update_of_ne (Finset.ne_of_mem_erase hj)]
  rw [← Finset.add_sum_erase _ _ hi, ← Finset.add_sum_erase _ (fun j => f (parties j)) hi,
    Function.update_self, hrest, add_right_comm, add_right_comm (f (parties i)), add_comm (f c)]

end Transition
