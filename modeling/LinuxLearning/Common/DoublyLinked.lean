-- SUMMARY: Doubly linked lists in a store of nodes: segments with loose ends, how writes to their links change them, and what a whole list says about each node.
import LinuxLearning.Common.SinglyLinked

/-!
# Doubly linked lists

A node has a payload and two links. `Seg s a es b` says that the nodes `es`, given as
addresses with payloads, are chained in the store `s`, that the first one points back
to `a` and the last one on to `b`. A list is a segment with null at both ends. Code
that edits a list is followed by splitting it with `seg_append`, redirecting the loose
ends with `setNext` and `setPrev`, carrying the rest over with `congr`, and appending
again.
-/

namespace DoublyLinked

open Memory

structure Node (δ : Type*) where
  val : δ
  prev : Option Ptr
  next : Option Ptr
deriving Repr, DecidableEq

/-- `x->next = y`. -/
def setNext {δ : Type} (s : Store (Node δ)) (x y : Option Ptr) : Except Fault (Store (Node δ)) :=
  modify s x ({ · with next := y })

/-- `x->prev = y`. -/
def setPrev {δ : Type} (s : Store (Node δ)) (x y : Option Ptr) : Except Fault (Store (Node δ)) :=
  modify s x ({ · with prev := y })

/-- `if (x) x->prev = y`. -/
def setPrevIf {δ : Type} (s : Store (Node δ)) (x y : Option Ptr) : Except Fault (Store (Node δ)) :=
  if x = none then return s else setPrev s x y

/-- The neighbours of `x` point past it: `x->prev->next = x->next`, and
    `x->next->prev = x->prev` if there is a next one. -/
def bypass {δ : Type} (s : Store (Node δ)) (x : Option Ptr) : Except Fault (Store (Node δ)) := do
  let t ← deref s x
  let s ← setNext s t.prev t.next
  let t ← deref s x
  setPrevIf s t.next t.prev

section Segments

variable {δ : Type} {s s' : Store (Node δ)} {es fs : List (Ptr × δ)} {a b a' b' : Option Ptr}
  {p q : Ptr} {d : δ}

def addrs (es : List (Ptr × δ)) : List Ptr :=
  es.map Prod.fst

/-- The address of the first node, or `b` if there is none. -/
def first (es : List (Ptr × δ)) (b : Option Ptr) : Option Ptr :=
  match es with
  | [] => b
  | (p, _) :: _ => some p

/-- The address of the last node, or `a` if there is none. -/
def last (a : Option Ptr) : List (Ptr × δ) → Option Ptr
  | [] => a
  | (p, _) :: es => last (some p) es

/-- The nodes `es` are chained in `s`, with `a` before and `b` behind them. -/
def Seg (s : Store (Node δ)) (a : Option Ptr) (es : List (Ptr × δ)) (b : Option Ptr) : Prop :=
  match es with
  | [] => True
  | (p, d) :: es => s p = some ⟨d, a, first es b⟩ ∧ Seg s (some p) es b

@[simp] theorem addrs_nil : addrs ([] : List (Ptr × δ)) = [] := rfl

@[simp] theorem addrs_cons : addrs ((p, d) :: es) = p :: addrs es := rfl

@[simp] theorem addrs_append : addrs (es ++ fs) = addrs es ++ addrs fs :=
  List.map_append

@[simp] theorem first_nil : first ([] : List (Ptr × δ)) b = b := rfl

@[simp] theorem first_cons : first ((p, d) :: es) b = some p := rfl

@[simp] theorem last_nil : last a ([] : List (Ptr × δ)) = a := rfl

@[simp] theorem last_cons : last a ((p, d) :: es) = last (some p) es := rfl

@[simp] theorem first_append : first (es ++ fs) b = first es (first fs b) := by
  cases es <;> rfl

@[simp] theorem last_append : last a (es ++ fs) = last (last a es) fs := by
  induction es generalizing a with
  | nil => rfl
  | cons e es ih => exact ih

/-- A segment is two segments that point to each other. -/
theorem seg_append : Seg s a (es ++ fs) b ↔ Seg s a es (first fs b) ∧ Seg s (last a es) fs b := by
  induction es generalizing a with
  | nil => simp [Seg]
  | cons e es ih =>
    simp only [List.cons_append, Seg, first_append, ih, last, and_assoc]

/-- A segment around one node. -/
theorem seg_split : Seg s a (es ++ (p, d) :: fs) b ↔
    Seg s a es (some p) ∧ s p = some ⟨d, last a es, first fs b⟩ ∧ Seg s (some p) fs b :=
  seg_append

theorem nodup_split (h : (addrs (es ++ (p, d) :: fs)).Nodup) :
    (addrs (es ++ fs)).Nodup ∧ p ∉ addrs es ∧ p ∉ addrs fs := by
  rw [addrs_append, addrs_cons, List.nodup_middle, List.nodup_cons, List.mem_append, not_or] at h
  exact ⟨by rw [addrs_append]; exact h.2, h.1⟩

theorem not_mem_split (h : (addrs (es ++ (p, d) :: fs)).Nodup) : p ∉ addrs (es ++ fs) := by
  rw [addrs_append, List.mem_append, not_or]
  exact (nodup_split h).2

/-- Only its own nodes matter to a segment. -/
theorem Seg.congr (h : Seg s a es b) (hs : ∀ p ∈ addrs es, s' p = s p) : Seg s' a es b := by
  induction es generalizing a with
  | nil => trivial
  | cons e es ih =>
    exact ⟨(hs _ List.mem_cons_self).trans h.1,
      ih h.2 fun p hp => hs p (List.mem_cons_of_mem _ hp)⟩

/-- The first node is redirected. -/
theorem Seg.setPrev (h : Seg s a ((p, d) :: es) b) (hp : s' p = some ⟨d, a', first es b⟩)
    (hs : ∀ q ∈ addrs es, s' q = s q) : Seg s' a' ((p, d) :: es) b :=
  ⟨hp, h.2.congr hs⟩

/-- The last node is redirected. -/
theorem Seg.setNext (h : Seg s a (es ++ [(p, d)]) b) (hp : s' p = some ⟨d, last a es, b'⟩)
    (hs : ∀ q ∈ addrs es, s' q = s q) : Seg s' a (es ++ [(p, d)]) b' := by
  rw [seg_split] at h ⊢
  exact ⟨h.1.congr hs, hp, trivial⟩

/-- A node is linked in behind `c`. -/
theorem Seg.insert {c : Ptr} {dc : δ} (h : Seg s a (es ++ (c, dc) :: fs) b)
    (hes : ∀ q ∈ addrs es, s' q = s q) (hc : s' c = some ⟨dc, last a es, some p⟩)
    (hp : s' p = some ⟨d, some c, first fs b⟩) (hfs : Seg s' (some p) fs b) :
    Seg s' a (es ++ (c, dc) :: (p, d) :: fs) b :=
  seg_split.mpr ⟨(seg_split.mp h).1.congr hes, hc, hp, hfs⟩

/-- The payload of a node is replaced. -/
theorem Seg.setVal {d' : δ} (h : Seg s a (es ++ (p, d) :: fs) b)
    (hp : s' p = some ⟨d', last a es, first fs b⟩) (hs : ∀ q ∈ addrs (es ++ fs), s' q = s q) :
    Seg s' a (es ++ (p, d') :: fs) b := by
  obtain ⟨hes, -, hfs⟩ := seg_split.mp h
  simp only [addrs_append, List.mem_append] at hs
  exact seg_split.mpr ⟨hes.congr fun q hq => hs q (.inl hq), hp, hfs.congr fun q hq => hs q (.inr hq)⟩

/-- The first node of a list, if there is one, is redirected. -/
theorem Seg.setPrevIf (h : Seg s a es none) (hnodup : (addrs es).Nodup) (a' : Option Ptr) :
    ∃ s', setPrevIf s (first es none) a' = .ok s' ∧ Seg s' a' es none ∧
      ∀ q, q ∉ addrs es → s' q = s q := by
  cases es with
  | nil => exact ⟨s, rfl, trivial, fun _ _ => rfl⟩
  | cons e es =>
    obtain ⟨p, d⟩ := e
    have hp := (List.nodup_cons.mp hnodup).1
    refine ⟨Function.update s p (some ⟨d, a', first es none⟩), ?_, h.setPrev ?_ ?_, ?_⟩
    · simp [DoublyLinked.setPrevIf, DoublyLinked.setPrev, h.1]
    · rw [Function.update_self]
    · intro q hq
      exact Function.update_of_ne (by rintro rfl; exact hp hq) ..
    · intro q hq
      exact Function.update_of_ne (by rintro rfl; exact hq List.mem_cons_self) ..

/-- A node with one before it is bypassed. -/
theorem Seg.bypass {c : Ptr} {dc : δ} (h : Seg s a (es ++ (c, dc) :: (p, d) :: fs) none)
    (hnodup : (addrs (es ++ (c, dc) :: (p, d) :: fs)).Nodup) :
    ∃ s', bypass s (some p) = .ok s' ∧ Seg s' a (es ++ (c, dc) :: fs) none ∧
      (∃ v, s' p = some v ∧ v.next = first fs none) ∧
      ∀ q, q ∉ addrs (es ++ (c, dc) :: (p, d) :: fs) → s' q = s q := by
  obtain ⟨hes, hc, hp, hfs⟩ := seg_split.mp h
  obtain ⟨hnd, hces, hcfs⟩ := nodup_split hnodup
  obtain ⟨hnd, -, hpfs⟩ := nodup_split hnd
  have hcp : c ≠ p := fun e => hcfs (by simp [e])
  rw [addrs_append, List.nodup_append] at hnd
  obtain ⟨-, hfsnd, hdisj⟩ := hnd
  have hother : ∀ q, q ≠ c → Function.update s c (some ⟨dc, last a es, first fs none⟩) q = s q :=
    fun q hq => Function.update_of_ne hq ..
  have hfs' := hfs.congr fun q hq => hother q fun e => hcfs (by simp [← e, hq])
  obtain ⟨s', hset, hseg, hframe⟩ := hfs'.setPrevIf hfsnd (some c)
  have hnext : s' p = some ⟨d, some c, first fs none⟩ := by
    rw [hframe p hpfs, hother p hcp.symm, hp]
  refine ⟨s', ?_, seg_split.mpr ⟨?_, ?_, hseg⟩, ⟨_, hnext, rfl⟩, ?_⟩
  · simp [DoublyLinked.bypass, DoublyLinked.setNext, hc, hp, hcp.symm, hset]
  · refine hes.congr fun q hq => ?_
    rw [hframe q fun hq' => hdisj q hq q hq' rfl, hother q fun e => hces (e ▸ hq)]
  · rw [hframe c fun hc' => hcfs (List.mem_cons_of_mem _ hc'), Function.update_self]
  · intro q hq
    simp only [addrs_append, addrs_cons, List.mem_append, List.mem_cons, not_or] at hq
    rw [hframe q hq.2.2.2, hother q hq.2.1]

/-- Every address of a segment is live. -/
theorem Seg.live (h : Seg s a es b) (hp : p ∈ addrs es) : ∃ v, s p = some v := by
  induction es generalizing a with
  | nil => cases hp
  | cons e es ih =>
    rcases List.mem_cons.mp hp with rfl | hp
    · exact ⟨_, h.1⟩
    · exact ih h.2 hp

/-- The links onwards make a chain. -/
theorem Seg.chain (h : Seg s a es none) : SinglyLinked.Chain Node.next s (first es none) (addrs es) := by
  induction es generalizing a with
  | nil => rfl
  | cons e es ih => exact ⟨rfl, _, h.1, ih h.2⟩

/-- The store has the payloads that the segment gives. -/
theorem Seg.get (h : Seg s a es b) (he : (p, d) ∈ es) : ∃ v, s p = some v ∧ v.val = d := by
  obtain ⟨pre, post, rfl⟩ := List.append_of_mem he
  exact ⟨_, (seg_split.mp h).2.1, rfl⟩

theorem mem_split (hp : p ∈ addrs es) : ∃ pre d post, es = pre ++ (p, d) :: post := by
  obtain ⟨⟨q, d⟩, hmem, rfl⟩ := List.mem_map.mp hp
  obtain ⟨pre, post, h⟩ := List.append_of_mem hmem
  exact ⟨pre, d, post, h⟩

theorem first_eq_getElem? : first es none = (addrs es)[0]? := by
  cases es <;> rfl

theorem last_eq_getLast? : last none es = (addrs es).getLast? := by
  rcases List.eq_nil_or_concat es with rfl | ⟨es, ⟨p, d⟩, rfl⟩
  · rfl
  · simp

/-- The node at position `i` of a list points to the nodes at the next positions. -/
theorem Seg.getElem (h : Seg s none es none) {i : Nat} (hi : (addrs es)[i]? = some p) :
    ∃ v, s p = some v ∧ v.next = (addrs es)[i + 1]? ∧
      v.prev = if i = 0 then none else (addrs es)[i - 1]? := by
  obtain ⟨hlt, hget⟩ := List.getElem?_eq_some_iff.mp hi
  have hlt' : i < es.length := by simpa [addrs] using hlt
  have hsplit : es = es.take i ++ es[i] :: es.drop (i + 1) := by simp
  have hp : es[i].1 = p := by simpa [addrs] using hget
  rw [hsplit, show es[i] = (p, es[i].2) by rw [← hp], seg_split] at h
  refine ⟨_, h.2.1, ?_, ?_⟩
  · rw [first_eq_getElem?]
    simp [addrs]
  · rw [last_eq_getLast?, addrs, List.map_take, List.getLast?_take]
    split
    · rfl
    · have hi' : i - 1 < (es.map Prod.fst).length := by
        rw [List.length_map]
        omega
      simp only [addrs, List.getElem?_eq_getElem hi', Option.some_or]

end Segments

end DoublyLinked
