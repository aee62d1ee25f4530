-- SUMMARY: Alarms as an abstract component: each has a time at which it goes off, and two runs with the same requests set off the same alarms.
import Mathlib.Data.Multiset.Filter
import Mathlib.Logic.Function.Basic
import LinuxLearning.Common.Run

/-!
# Alarms

A state gives every name the alarm that is set for it: the time from which it is due, and
some data. A tick sets off the alarms that are due, those with an earlier time first. This
is what a container of timers is for, and nothing here knows how one keeps them.
-/

namespace Alarms

open Transition

-- ---------------------------------------------------------------------------
-- Tables
-- ---------------------------------------------------------------------------

section Tables

variable {ι β : Type} {f g : ι → Option β} {m : Multiset (ι × β)} {i : ι} {b : β}

/-- The entries of the table are `m`, one for each name. -/
structure Tabulates (m : Multiset (ι × β)) (f : ι → Option β) : Prop where
  nodup : (m.map Prod.fst).Nodup
  mem : ∀ i b, f i = some b ↔ (i, b) ∈ m

theorem Tabulates.empty : Tabulates (0 : Multiset (ι × β)) fun _ => none :=
  ⟨Multiset.nodup_zero, fun _ _ => by simp⟩

theorem Tabulates.notMem (h : Tabulates m f) (hi : f i = none) : i ∉ m.map Prod.fst := by
  intro hmem
  obtain ⟨x, hx, rfl⟩ := Multiset.mem_map.mp hmem
  rw [(h.mem x.1 x.2).mpr hx] at hi
  cases hi

theorem notMem_of_name (h : i ∉ m.map Prod.fst) (b : β) : (i, b) ∉ m :=
  fun hmem => h (Multiset.mem_map.mpr ⟨(i, b), hmem, rfl⟩)

theorem Tabulates.filter (h : Tabulates m f) (p : β → Prop) [DecidablePred p] :
    Tabulates (m.filter fun x => p x.2) fun i => (f i).filter fun b => p b where
  nodup := Multiset.nodup_of_le (Multiset.map_le_map (Multiset.filter_le ..)) h.nodup
  mem i b := by
    rw [Option.filter_eq_some_iff, h.mem, Multiset.mem_filter, decide_eq_true_iff]

variable [DecidableEq ι]

theorem Tabulates.cons (h : Tabulates m f) (hi : f i = none) (b : β) :
    Tabulates ((i, b) ::ₘ m) (Function.update f i (some b)) where
  nodup := by
    rw [Multiset.map_cons]
    exact Multiset.nodup_cons.mpr ⟨h.notMem hi, h.nodup⟩
  mem j c := by
    rw [Multiset.mem_cons, Prod.mk.injEq, Function.update_apply]
    by_cases hj : j = i
    · subst hj
      simp [notMem_of_name (h.notMem hi) c, eq_comm]
    · rw [if_neg hj, h.mem]
      simp [hj]

theorem Tabulates.erase (h : Tabulates ((i, b) ::ₘ m) f) : Tabulates m (Function.update f i none) where
  nodup := (Multiset.nodup_cons.mp (Multiset.map_cons Prod.fst (i, b) m ▸ h.nodup)).2
  mem j c := by
    obtain ⟨hnot, -⟩ := Multiset.nodup_cons.mp (Multiset.map_cons Prod.fst (i, b) m ▸ h.nodup)
    rw [Function.update_apply]
    by_cases hj : j = i
    · subst hj
      simp [notMem_of_name hnot c]
    · rw [if_neg hj, h.mem]
      simp [hj]

end Tables

-- ---------------------------------------------------------------------------
-- The component
-- ---------------------------------------------------------------------------

variable {ι δ : Type}

/-- The alarms that are set: when each is due, and its data. -/
abbrev State (ι δ : Type) := ι → Option (Int × δ)

inductive Request (ι δ : Type) where
  | start (i : ι) (due : Int) (d : δ)
  | restart (i : ι) (due : Int)
  | stop (i : ι)
  | tick (cur : Int)
deriving Repr, DecidableEq

/-- A request, and the alarms that go off. -/
abbrev Event (ι δ : Type) := Request ι δ × List (ι × δ)

/-- What goes off at time `cur`: the alarms that are due, each once, and earlier ones first. -/
structure GoesOff (s : State ι δ) (cur : Int) (fired : List (ι × δ)) : Prop where
  once : (fired.map Prod.fst).Nodup
  due : ∀ i d, (i, d) ∈ fired ↔ ∃ e, s i = some (e, d) ∧ e ≤ cur
  order : fired.Pairwise fun x y => ∀ a b, s x.1 = some a → s y.1 = some b → a.1 ≤ b.1

namespace Request

/-- A name has one alarm at a time, and a restart puts it off. -/
def Allowed (s : State ι δ) : Request ι δ → Prop
  | .start i _ _ => s i = none
  | .restart i e => ∃ a, s i = some a ∧ a.1 ≤ e
  | .stop i => (s i).isSome
  | .tick _ => True

def Fires (s : State ι δ) (fired : List (ι × δ)) : Request ι δ → Prop
  | .tick cur => GoesOff s cur fired
  | _ => fired = []

def next [DecidableEq ι] (s : State ι δ) : Request ι δ → State ι δ
  | .start i e d => Function.update s i (some (e, d))
  | .restart i e => Function.update s i ((s i).map fun a => (e, a.2))
  | .stop i => Function.update s i none
  | .tick cur => fun i => (s i).filter fun a => cur < a.1

end Request

variable [DecidableEq ι]

def Step (s : State ι δ) (e : Event ι δ) (t : State ι δ) : Prop :=
  e.1.Allowed s ∧ e.1.Fires s e.2 ∧ t = e.1.next s

variable {s t u : State ι δ} {cur : Int} {fired fired' : List (ι × δ)} {e e' : Event ι δ}
  {es fs : List (Event ι δ)}

omit [DecidableEq ι] in
/-- What goes off is determined up to the order of alarms of one time. -/
theorem GoesOff.perm (h : GoesOff s cur fired) (h' : GoesOff s cur fired') : List.Perm fired fired' := by
  rw [List.perm_ext_iff_of_nodup h.once.of_map h'.once.of_map]
  rintro ⟨i, d⟩
  exact (h.due i d).trans (h'.due i d).symm

omit [DecidableEq ι] in
/-- A name whose alarm goes off. -/
theorem GoesOff.mem_names (h : GoesOff s cur fired) {i : ι} :
    i ∈ fired.map Prod.fst ↔ ∃ a, s i = some a ∧ a.1 ≤ cur := by
  constructor
  · intro hi
    obtain ⟨⟨j, d⟩, hmem, rfl⟩ := List.mem_map.mp hi
    obtain ⟨e, he, hle⟩ := (h.due j d).mp hmem
    exact ⟨(e, d), he, hle⟩
  · rintro ⟨⟨e, d⟩, he, hle⟩
    exact List.mem_map_of_mem (f := Prod.fst) ((h.due i d).mpr ⟨e, he, hle⟩)

omit [DecidableEq ι] in
/-- The entries of a table that are due, in order, go off. -/
theorem Tabulates.goesOff {β : Type} {m : Multiset (ι × β)} {f : ι → Option β} (h : Tabulates m f)
    (alarm : β → Int × δ) {due : List (ι × β)}
    (hdue : Multiset.ofList due = m.filter fun x => (alarm x.2).1 ≤ cur)
    (hord : due.Pairwise fun x y => (alarm x.2).1 ≤ (alarm y.2).1) :
    GoesOff (fun i => (f i).map alarm) cur (due.map fun x => (x.1, (alarm x.2).2)) := by
  have hmem : ∀ x, x ∈ due ↔ f x.1 = some x.2 ∧ (alarm x.2).1 ≤ cur := by
    intro x
    rw [← Multiset.mem_coe, hdue, Multiset.mem_filter, h.mem]
  have hnames : (due.map Prod.fst).Nodup := by
    have hle := Multiset.map_le_map (f := Prod.fst) (Multiset.filter_le (fun x => (alarm x.2).1 ≤ cur) m)
    rw [← hdue, Multiset.map_coe] at hle
    exact Multiset.coe_nodup.mp (Multiset.nodup_of_le hle h.nodup)
  refine ⟨?_, fun i d => ?_, ?_⟩
  · rw [List.map_map]
    exact hnames
  · simp only [List.mem_map, hmem, Prod.mk.injEq, Option.map_eq_some_iff]
    constructor
    · rintro ⟨x, ⟨hx, hle⟩, rfl, rfl⟩
      exact ⟨(alarm x.2).1, ⟨x.2, hx, rfl⟩, hle⟩
    · rintro ⟨e, ⟨b, hb, hab⟩, hle⟩
      exact ⟨(i, b), ⟨hb, by rwa [hab]⟩, rfl, by rw [hab]⟩
  · rw [List.pairwise_map]
    refine hord.imp_of_mem fun hx hy hle a b ha hb => ?_
    simp only [((hmem _).mp hx).1, Option.map_some, Option.some.injEq] at ha
    simp only [((hmem _).mp hy).1, Option.map_some, Option.some.injEq] at hb
    rwa [← ha, ← hb]

/-- Where the same is asked for, the same is set afterwards, and the same alarms go off. -/
theorem Step.agree (h : Step s e t) (h' : Step s e' u) (hreq : e.1 = e'.1) : t = u ∧ List.Perm e.2 e'.2 := by
  obtain ⟨r, fired⟩ := e
  obtain ⟨r', fired'⟩ := e'
  obtain rfl : r = r' := hreq
  obtain ⟨-, hfires, rfl⟩ := h
  obtain ⟨-, hfires', rfl⟩ := h'
  refine ⟨rfl, ?_⟩
  cases r with
  | tick cur => exact GoesOff.perm hfires hfires'
  | start _ _ _ | restart _ _ | stop _ =>
    obtain rfl : fired = [] := hfires
    obtain rfl : fired' = [] := hfires'
    exact .nil

/-- Two runs that ask for the same set off the same alarms with every tick. -/
theorem Run.agree (h : Run Step s es t) (h' : Run Step s fs u) (hreq : es.map Prod.fst = fs.map Prod.fst) :
    t = u ∧ List.Forall₂ (fun e f => List.Perm e.2 f.2) es fs := by
  induction h generalizing fs with
  | nil s =>
    obtain rfl : fs = [] := List.map_eq_nil_iff.mp hreq.symm
    exact ⟨Run.nil_iff.mp h', .nil⟩
  | @cons s t v e es hstep _ ih =>
    cases fs with
    | nil => cases hreq
    | cons f fs =>
      obtain ⟨hef, htail⟩ := List.cons.inj hreq
      obtain ⟨t', hstep', hrun'⟩ := Run.cons_iff.mp h'
      obtain ⟨rfl, hperm⟩ := hstep.agree hstep' hef
      obtain ⟨hfinal, hall⟩ := ih hrun' htail
      exact ⟨hfinal, .cons hperm hall⟩

end Alarms
