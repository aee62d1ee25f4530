-- SUMMARY: Undefined behaviour as faults, and objects behind pointers: reading, changing, freeing, and what each does to the rest of the store.
import Mathlib.Logic.Function.Basic

/-!
# Memory

A C or C++ computation is a value or a `Fault`. Objects of one class live in a
`Store`: an address is live where the store has a value. A pointer is an optional
address, and null is `none`.
-/

namespace Memory

/-- What ends a computation that the language leaves undefined. -/
inductive Fault where
  | outOfBounds (i : Int)
  | intOverflow (v : Int)
  | nullPointer
  | dangling (p : Nat)
  | outOfFuel
deriving Repr, DecidableEq

@[simp] theorem ok_bind {α β : Type} (a : α) (f : α → Except Fault β) :
    ((Except.ok a : Except Fault α) >>= f) = f a := rfl

@[simp] theorem pure_eq_ok {α : Type} (a : α) : (pure a : Except Fault α) = .ok a := rfl

/-- A postcondition of a computation that may fault. -/
def Ensures {α : Type} (m : Except Fault α) (Q : α → Prop) : Prop :=
  ∀ a, m = .ok a → Q a

namespace Ensures
variable {α β : Type} {m : Except Fault α} {f : α → Except Fault β} {P : α → Prop} {Q : β → Prop}

theorem pure {b : β} (h : Q b) : Ensures (Pure.pure b) Q := by
  rintro _ ⟨⟩
  exact h

theorem throw {e : Fault} : Ensures (MonadExcept.throw e : Except Fault β) Q := by
  rintro _ ⟨⟩

theorem bind (hm : Ensures m P) (hf : ∀ a, P a → Ensures (f a) Q) : Ensures (m >>= f) Q := by
  intro b hb
  cases m with
  | error e => cases hb
  | ok a => exact hf a (hm a rfl) b hb

theorem bind_any (hf : ∀ a, Ensures (f a) Q) : Ensures (m >>= f) Q :=
  bind (P := fun _ => True) (fun _ _ => trivial) fun a _ => hf a

theorem ite {c : Prop} [Decidable c] {m m' : Except Fault β} (h : Ensures m Q) (h' : Ensures m' Q) :
    Ensures (if c then m else m') Q := by
  split
  · exact h
  · exact h'

theorem mono {P' : α → Prop} (hm : Ensures m P) (h : ∀ a, P a → P' a) : Ensures m P' :=
  fun a ha => h a (hm a ha)

/-- The strongest postcondition. -/
theorem result : Ensures m fun a => m = .ok a :=
  fun _ => id

/-- What follows a computation matters only for its results. -/
theorem bind_congr {g : α → Except Fault β} (hm : Ensures m P) (h : ∀ a, P a → f a = g a) : (m >>= f) = (m >>= g) := by
  cases m with
  | error e => rfl
  | ok a => exact h a (hm a rfl)

end Ensures

/-- A computation that faults with `F` only, and a postcondition of its result. -/
def Within {α : Type} (F : Fault → Prop) (m : Except Fault α) (Q : α → Prop) : Prop :=
  match m with
  | .error e => F e
  | .ok a => Q a

namespace Within
variable {α β : Type} {F : Fault → Prop} {m : Except Fault α} {f : α → Except Fault β} {P : α → Prop} {Q : β → Prop}

theorem pure {b : β} (h : Q b) : Within F (Pure.pure b) Q :=
  h

theorem bind (hm : Within F m P) (hf : ∀ a, P a → Within F (f a) Q) : Within F (m >>= f) Q := by
  cases m with
  | error e => exact hm
  | ok a => exact hf a hm

theorem ite {c : Prop} [Decidable c] {m m' : Except Fault β} (h : c → Within F m Q) (h' : ¬ c → Within F m' Q) :
    Within F (if c then m else m') Q := by
  by_cases hc : c
  · rw [if_pos hc]
    exact h hc
  · rw [if_neg hc]
    exact h' hc

theorem mono {P' : α → Prop} (hm : Within F m P) (h : ∀ a, P a → P' a) : Within F m P' := by
  cases m with
  | error e => exact hm
  | ok a => exact h a hm

theorem ensures (hm : Within F m P) : Ensures m P := by
  rintro a rfl
  exact hm

end Within

/-- A computation is evaluated by what one reads off its result. -/
theorem ok_of_toOption {α β : Type} {m : Except Fault α} {f : α → β} {b : β}
    (h : m.toOption.map f = some b) : ∃ a, m = .ok a ∧ f a = b := by
  cases m with
  | error e => cases h
  | ok a => exact ⟨a, rfl, Option.some.inj h⟩

/-- A computation whose loops have fuel comes to a result, the same with any fuel from some
    amount on. -/
def Yields {α : Type} (m : Nat → Except Fault α) (a : α) : Prop :=
  ∃ k, ∀ n, k ≤ n → m n = .ok a

theorem Yields.unique {α : Type} {m : Nat → Except Fault α} {a b : α} (ha : Yields m a) (hb : Yields m b) :
    a = b := by
  obtain ⟨k, ha⟩ := ha
  obtain ⟨l, hb⟩ := hb
  exact Except.ok.inj ((ha _ (Nat.le_max_left k l)).symm.trans (hb _ (Nat.le_max_right k l)))

theorem Yields.of_add {α : Type} {m : Nat → Except Fault α} {a : α} (k : Nat) (h : ∀ n, m (n + k) = .ok a) :
    Yields m a := by
  refine ⟨k, fun n hn => ?_⟩
  rw [← Nat.sub_add_cancel hn]
  exact h _

abbrev Ptr := Nat

/-- The live objects of a class. -/
abbrev Store (β : Type) := Ptr → Option β

variable {β : Type} {s : Store β} {p q : Ptr} {v : β}

def deref (s : Store β) : Option Ptr → Except Fault β
  | none => .error .nullPointer
  | some p =>
    match s p with
    | none => .error (.dangling p)
    | some v => .ok v

/-- A write to members of the object behind a pointer. -/
def modify (s : Store β) (x : Option Ptr) (f : β → β) : Except Fault (Store β) :=
  match x with
  | none => .error .nullPointer
  | some p =>
    match s p with
    | none => .error (.dangling p)
    | some v => .ok (Function.update s p (some (f v)))

/-- `delete`. Deleting a null pointer does nothing. -/
def free (s : Store β) : Option Ptr → Except Fault (Store β)
  | none => .ok s
  | some p =>
    match s p with
    | none => .error (.dangling p)
    | some _ => .ok (Function.update s p none)

@[simp] theorem deref_of_live (h : s p = some v) : deref s (some p) = .ok v := by
  simp only [deref, h]

@[simp] theorem modify_of_live (h : s p = some v) (f : β → β) :
    modify s (some p) f = .ok (Function.update s p (some (f v))) := by
  simp only [modify, h]

@[simp] theorem free_of_live (h : s p = some v) : free s (some p) = .ok (Function.update s p none) := by
  simp only [free, h]

/-- The store once the objects `ps` are deleted. -/
def without (s : Store β) (ps : List Ptr) : Store β :=
  fun p => if p ∈ ps then none else s p

@[simp] theorem without_nil (s : Store β) : without s [] = s := by
  funext p
  simp [without]

@[simp] theorem without_of_notMem {ps : List Ptr} (hp : p ∉ ps) : without s ps p = s p :=
  if_neg hp

theorem without_append (s : Store β) (ps qs : List Ptr) :
    without (without s ps) qs = without s (ps ++ qs) := by
  funext p
  by_cases hq : p ∈ qs
  · simp [without, hq]
  · simp [without, hq]

theorem update_none (s : Store β) (p : Ptr) : Function.update s p none = without s [p] := by
  funext q
  by_cases hq : q = p
  · simp [without, hq]
  · simp [without, hq]

end Memory
