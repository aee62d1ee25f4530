-- SUMMARY: Singly linked lists in a store: the nodes that a pointer leads to, and what writes to other nodes and a new head do to them.
import Mathlib.Data.List.Nodup
import LinuxLearning.Common.Memory

/-!
# Singly linked lists

`Chain next s x ps` says that `x` leads to the nodes `ps` and then to null, where `next` is
the member that links an object to the one behind it. A chain is determined by where it begins,
so none of its nodes comes twice. `Linked` says the same of one node, without the list.
-/

namespace SinglyLinked

open Memory

variable {β : Type} {next : β → Option Ptr} {s s' : Store β} {x : Option Ptr} {p q : Ptr} {v : β}
  {ps qs : List Ptr}

/-- The nodes from `x` on are `ps`. -/
def Chain (next : β → Option Ptr) (s : Store β) (x : Option Ptr) : List Ptr → Prop
  | [] => x = none
  | p :: ps => x = some p ∧ ∃ v, s p = some v ∧ Chain next s (next v) ps

/-- The links from `x` on lead to the node `p`. -/
inductive Linked (next : β → Option Ptr) (s : Store β) : Option Ptr → Ptr → Prop where
  | here (p : Ptr) : Linked next s (some p) p
  | behind {p q : Ptr} {v : β} : s q = some v → Linked next s (next v) p → Linked next s (some q) p

theorem Chain.eq_none_iff (h : Chain next s x ps) : x = none ↔ ps = [] := by
  cases ps with
  | nil => exact iff_of_true h rfl
  | cons p ps =>
    rw [h.1]
    simp

/-- The head of a chain can be read, and its link leads to the rest. -/
theorem Chain.tail (h : Chain next s (some p) ps) :
    ∃ v qs, ps = p :: qs ∧ s p = some v ∧ Chain next s (next v) qs := by
  cases ps with
  | nil => cases h
  | cons q qs =>
    obtain ⟨hpq, v, hv, hqs⟩ := h
    cases hpq
    exact ⟨v, qs, rfl, hv, hqs⟩

theorem Chain.linked_iff (h : Chain next s x ps) : Linked next s x p ↔ p ∈ ps := by
  constructor
  · intro hp
    induction hp generalizing ps with
    | here p =>
      obtain ⟨v, qs, rfl, -, -⟩ := h.tail
      exact List.mem_cons_self
    | behind hv _ ih =>
      obtain ⟨v', qs, rfl, hv', hqs⟩ := h.tail
      rw [hv, Option.some.injEq] at hv'
      exact List.mem_cons_of_mem _ (ih (hv' ▸ hqs))
  · intro hp
    induction ps generalizing x with
    | nil => cases hp
    | cons q ps ih =>
      obtain ⟨rfl, v, hv, hps⟩ := h
      rcases List.mem_cons.mp hp with rfl | hp
      · exact .here p
      · exact .behind hv (ih hps hp)

/-- Only its own nodes matter to a chain. -/
theorem Chain.congr (h : Chain next s x ps) (hs : ∀ p ∈ ps, s' p = s p) : Chain next s' x ps := by
  induction ps generalizing x with
  | nil => exact h
  | cons p ps ih =>
    obtain ⟨hx, v, hv, hps⟩ := h
    rw [List.forall_mem_cons] at hs
    exact ⟨hx, v, hs.1.trans hv, ih hps hs.2⟩

/-- Of its nodes, only the links matter. -/
theorem Chain.congr_links (h : Chain next s x ps) (hs : ∀ p ∈ ps, (s' p).map next = (s p).map next) :
    Chain next s' x ps := by
  induction ps generalizing x with
  | nil => exact h
  | cons p ps ih =>
    obtain ⟨hx, v, hv, hps⟩ := h
    rw [List.forall_mem_cons] at hs
    obtain ⟨v', hv', hnext⟩ := Option.map_eq_some_iff.mp (hs.1.trans (congrArg (Option.map next) hv))
    exact ⟨hx, v', hv', hnext ▸ ih hps hs.2⟩

/-- A node that links to the head of a chain becomes the head. -/
theorem Chain.push (h : Chain next s x ps) (hp : p ∉ ps) (hv : next v = x) :
    Chain next (Function.update s p (some v)) (some p) (p :: ps) := by
  refine ⟨rfl, v, Function.update_self .., hv ▸ h.congr fun q hq => ?_⟩
  exact Function.update_of_ne (by rintro rfl; exact hp hq) ..

theorem Chain.unique (h : Chain next s x ps) (h' : Chain next s x qs) : ps = qs := by
  induction ps generalizing x qs with
  | nil => exact (h'.eq_none_iff.mp h).symm
  | cons p ps ih =>
    obtain ⟨rfl, v, hv, hps⟩ := h
    obtain ⟨v', qs, rfl, hv', hqs⟩ := h'.tail
    obtain rfl := Option.some.inj (hv.symm.trans hv')
    rw [ih hps hqs]

/-- The rest of a chain from one of its nodes on is a chain. -/
theorem Chain.drop (h : Chain next s x (qs ++ p :: ps)) : Chain next s (some p) (p :: ps) := by
  induction qs generalizing x with
  | nil => exact ⟨rfl, h.2⟩
  | cons q qs ih =>
    obtain ⟨-, v, -, hqs⟩ := h
    exact ih hqs

/-- A chain that came back to a node would go on from there as it did before, and have no end. -/
theorem Chain.nodup (h : Chain next s x ps) : ps.Nodup := by
  induction ps generalizing x with
  | nil => exact List.nodup_nil
  | cons p ps ih =>
    obtain ⟨rfl, v, hv, hps⟩ := h
    refine List.nodup_cons.mpr ⟨fun hp => ?_, ih hps⟩
    obtain ⟨as, bs, rfl⟩ := List.append_of_mem hp
    have hback : Chain next s (some p) (p :: (as ++ p :: bs)) := ⟨rfl, v, hv, hps⟩
    have hlen := congrArg List.length (hback.unique hps.drop)
    simp at hlen
    omega

/-- The head of a chain can be deleted once its link is read. -/
theorem Chain.pop (h : Chain next s x (p :: ps)) :
    x = some p ∧ ∃ v, s p = some v ∧ Chain next (without s [p]) (next v) ps := by
  have hp : p ∉ ps := (List.nodup_cons.mp h.nodup).1
  obtain ⟨rfl, v, hv, hps⟩ := h
  refine ⟨rfl, v, hv, hps.congr fun q hq => without_of_notMem ?_⟩
  rw [List.mem_singleton]
  rintro rfl
  exact hp hq

end SinglyLinked
