-- SUMMARY: The slots of the timer wheel as lists: their invariant, and the specification of add_timer, del_timer and the loop of tick.
import LinuxLearning.Timers.TimeWheel

/-!
# The slots of the timer wheel

Every operation works on the list of one slot. `Holds` says what that list is, `Frame`
that nothing else has changed, and `Inv` that the slots together hold all timers.
-/

namespace Timers

open Memory DoublyLinked

namespace TimeWheel

abbrev Entry := Ptr × TwTimerData

/-- A timer that belongs in slot `i`. -/
structure Placed (i : Int) (d : TwTimerData) : Prop where
  slot : d.timeSlot = i
  rotation : 0 ≤ d.rotation
  callback : d.cbFunc ≠ none

/-- The list of slot `i` is `es`. -/
structure Holds (w : TimeWheel) (i : Int) (es : List Entry) : Prop where
  seg : Seg w.store none es none
  nodup : (addrs es).Nodup
  head : w.slots i = first es none

/-- Only slot `i` and the nodes `ps` have changed. -/
structure Frame (w w' : TimeWheel) (i : Int) (ps : List Ptr) : Prop where
  cur : w'.curSlot = w.curSlot
  slots : ∀ j, j ≠ i → w'.slots j = w.slots j
  store : ∀ q, q ∉ ps → w'.store q = w.store q

/-- The slots hold the lists `ls`, which are all the timers there are. -/
structure Inv (w : TimeWheel) (ls : Int → List Entry) : Prop where
  cur : 0 ≤ w.curSlot ∧ w.curSlot < N
  holds : ∀ i, Holds w i (ls i)
  placed : ∀ i, ∀ e ∈ ls i, Placed i e.2
  range : ∀ i, ls i ≠ [] → 0 ≤ i ∧ i < N
  live : ∀ p v, w.store p = some v → p ∈ addrs (ls v.val.timeSlot)

variable {w w' : TimeWheel} {ls : Int → List Entry} {es pre post : List Entry} {p q : Ptr}
  {d : TwTimerData} {i j c : Int}

theorem Frame.mono {ps qs : List Ptr} (h : Frame w w' i ps) (hsub : ps ⊆ qs) : Frame w w' i qs :=
  { h with store := fun q hq => h.store q fun hq' => hq (hsub hq') }

theorem Frame.trans {w'' : TimeWheel} {ps : List Ptr} (h : Frame w w' i ps) (h' : Frame w' w'' i ps) :
    Frame w w'' i ps where
  cur := h'.cur.trans h.cur
  slots j hj := (h'.slots j hj).trans (h.slots j hj)
  store q hq := (h'.store q hq).trans (h.store q hq)

/-- Other slots and other nodes do not matter. -/
theorem Holds.congr {ps : List Ptr} (h : Holds w j es) (hf : Frame w w' i ps) (hij : j ≠ i)
    (hps : ∀ q ∈ addrs es, q ∉ ps) : Holds w' j es where
  seg := h.seg.congr fun q hq => hf.store q (hps q hq)
  nodup := h.nodup
  head := (hf.slots j hij).trans h.head

theorem mem_addrs (he : (p, d) ∈ es) : p ∈ addrs es :=
  List.mem_map.mpr ⟨_, he, rfl⟩

theorem exists_mem (hp : p ∈ addrs es) : ∃ d, (p, d) ∈ es := by
  obtain ⟨⟨q, d⟩, hmem, rfl⟩ := List.mem_map.mp hp
  exact ⟨d, hmem⟩

/-- No timer is in two slots. -/
theorem Inv.disjoint (h : Inv w ls) (hi : p ∈ addrs (ls i)) (hj : p ∈ addrs (ls j)) : i = j := by
  obtain ⟨d, hd⟩ := exists_mem hi
  obtain ⟨d', hd'⟩ := exists_mem hj
  obtain ⟨v, hv, rfl⟩ := (h.holds i).seg.get hd
  obtain ⟨v', hv', rfl⟩ := (h.holds j).seg.get hd'
  rw [hv, Option.some.injEq] at hv'
  rw [← (h.placed i _ hd).slot, ← (h.placed j _ hd').slot, hv']

theorem Inv.isSome_iff (h : Inv w ls) : (w.store p).isSome ↔ ∃ i, p ∈ addrs (ls i) := by
  rw [Option.isSome_iff_exists]
  constructor
  · rintro ⟨v, hv⟩
    exact ⟨_, h.live p v hv⟩
  · rintro ⟨i, hi⟩
    exact (h.holds i).seg.live hi

/-- A live timer is somewhere in the list of its slot. -/
theorem Inv.split (h : Inv w ls) (hlive : (w.store p).isSome) :
    ∃ i pre d post, ls i = pre ++ (p, d) :: post ∧ Placed i d ∧ 0 ≤ i ∧ i < N := by
  obtain ⟨v, hv⟩ := Option.isSome_iff_exists.mp hlive
  obtain ⟨pre, d, post, hls⟩ := mem_split (h.live p v hv)
  exact ⟨_, pre, d, post, hls, h.placed _ (p, d) (by simp [hls]), h.range _ (by simp [hls])⟩

/-- A slot gets another list, of timers that were in it or are new. -/
theorem Inv.replace (h : Inv w ls) (hc : 0 ≤ c ∧ c < N) (hf : Frame w w' c (addrs (ls c) ++ addrs es))
    (hholds : Holds w' c es) (hplaced : ∀ e ∈ es, Placed c e.2)
    (hold : ∀ q ∈ addrs es, q ∈ addrs (ls c) ∨ w.store q = none)
    (hgone : ∀ q ∈ addrs (ls c), q ∉ addrs es → w'.store q = none) :
    Inv w' (Function.update ls c es) := by
  refine ⟨hf.cur ▸ h.cur, ?_, ?_, ?_, fun p v hv => ?_⟩
  · refine (Function.forall_update_iff ls fun i es => Holds w' i es).mpr
      ⟨hholds, fun i hi => (h.holds i).congr hf hi fun q hq hmem => ?_⟩
    rcases List.mem_append.mp hmem with hqc | hqe
    · exact hi (h.disjoint hq hqc)
    rcases hold q hqe with hqc | hnone
    · exact hi (h.disjoint hq hqc)
    · obtain ⟨v, hv⟩ := (h.holds i).seg.live hq
      rw [hnone] at hv
      cases hv
  · exact (Function.forall_update_iff ls fun i es => ∀ e ∈ es, Placed i e.2).mpr
      ⟨hplaced, fun i _ => h.placed i⟩
  · exact (Function.forall_update_iff ls fun i es => es ≠ [] → 0 ≤ i ∧ i < N).mpr
      ⟨fun _ => hc, fun i _ => h.range i⟩
  · by_cases hp : p ∈ addrs es
    · obtain ⟨d, hd⟩ := exists_mem hp
      obtain ⟨v', hv', rfl⟩ := hholds.seg.get hd
      obtain rfl := Option.some.inj (hv'.symm.trans hv)
      rwa [(hplaced _ hd).slot, Function.update_self]
    · have hpc : p ∉ addrs (ls c) := fun hpc => by rw [hgone p hpc hp] at hv; cases hv
      rw [hf.store p (by simp [hp, hpc])] at hv
      have hlive := h.live p v hv
      rwa [Function.update_of_ne (by rintro e; exact hpc (e ▸ hlive))]

/-- One timer gets other members, and stays where it is. -/
theorem Inv.setVal {d' : TwTimerData} (h : Inv w ls) (hls : ls i = pre ++ (p, d) :: post) (hd' : Placed i d')
    (hholds : Holds w' i (pre ++ (p, d') :: post)) (hf : Frame w w' i [p]) :
    Inv w' (Function.update ls i (pre ++ (p, d') :: post)) := by
  have haddrs : addrs (pre ++ (p, d') :: post) = addrs (ls i) := by simp [hls]
  refine h.replace (h.range i (by simp [hls])) (hf.mono (by simp [hls])) hholds ?_ ?_ ?_
  · intro e he
    rcases List.mem_append.mp he with he | he
    · exact h.placed i e (by simp [hls, he])
    rcases List.mem_cons.mp he with rfl | he
    · exact hd'
    · exact h.placed i e (by simp [hls, he])
  · exact fun q hq => .inl (haddrs ▸ hq)
  · exact fun q hq hq' => absurd (haddrs ▸ hq) hq'

/-- The members that `add_timer` gives a timer. -/
def newTimer (c timeout : Int) : TwTimerData where
  rotation := (ticksOf timeout).tdiv N
  timeSlot := (c + (ticksOf timeout).tmod N).tmod N
  cbFunc := none
  userData := none

theorem slot_ok (hi : 0 ≤ i ∧ i < N) (w : TimeWheel) : slot w i = .ok (w.slots i) := if_pos hi

theorem setSlot_ok (hi : 0 ≤ i ∧ i < N) (w : TimeWheel) (x : Option Ptr) :
    setSlot w i x = .ok { w with slots := Function.update w.slots i x } := if_pos hi

theorem Inv.fresh (h : Inv w ls) (hp : w.store p = none) (i : Int) : p ∉ addrs (ls i) := by
  intro hmem
  obtain ⟨v, hv⟩ := (h.holds i).seg.live hmem
  rw [hp] at hv
  cases hv

/-- `add_timer` puts a new timer at the head of its slot. -/
theorem addTimer_ok {timeout ts : Int} (h : Holds w ts es) (hp : p ∉ addrs es) (ht : 0 ≤ timeout)
    (hts' : (newTimer w.curSlot timeout).timeSlot = ts) (hts : 0 ≤ ts ∧ ts < N) :
    ∃ w', addTimer w p timeout = .ok (w', some p) ∧
      Holds w' ts ((p, newTimer w.curSlot timeout) :: es) ∧ Frame w w' ts (p :: addrs es) := by
  obtain ⟨hseg, hnd, hhead⟩ := h
  have hpos : ¬ timeout < 0 := Int.not_lt.mpr ht
  have hslot : (w.curSlot + (ticksOf timeout).tmod N).tmod N = ts := hts'
  have hnd' := List.nodup_cons.mpr ⟨hp, hnd⟩
  cases es with
  | nil =>
    rw [first_nil] at hhead
    refine ⟨{ w with
      store := Function.update w.store p (some ⟨newTimer w.curSlot timeout, none, none⟩)
      slots := Function.update w.slots ts (some p) }, ?_,
      ⟨⟨?_, trivial⟩, hnd', Function.update_self ..⟩, ⟨rfl, fun j hj => ?_, fun q hq => ?_⟩⟩
    · simp [addTimer, hpos, hslot, slot_ok hts, setSlot_ok hts, hhead, newTimer]
    · exact Function.update_self ..
    · exact Function.update_of_ne hj ..
    · exact Function.update_of_ne (by rintro rfl; exact hq List.mem_cons_self) ..
  | cons e es =>
    obtain ⟨q, dq⟩ := e
    rw [first_cons] at hhead
    have hqp : q ≠ p := by rintro rfl; simp at hp
    refine ⟨{ w with
      store := Function.update (Function.update (Function.update w.store
        p (some ⟨newTimer w.curSlot timeout, none, none⟩))
        p (some ⟨newTimer w.curSlot timeout, none, some q⟩)) q (some ⟨dq, some p, first es none⟩)
      slots := Function.update w.slots ts (some p) }, ?_,
      ⟨⟨?_, ?_⟩, hnd', Function.update_self ..⟩, ⟨rfl, fun j hj => ?_, fun r hr => ?_⟩⟩
    · simp [addTimer, hpos, hslot, slot_ok hts, setSlot_ok hts, hhead, newTimer, setNext, setPrev,
        hqp, hseg.1]
    · exact (Function.update_of_ne hqp.symm ..).trans (Function.update_self ..)
    · refine hseg.setPrev (Function.update_self ..) fun r hr => ?_
      have hrp : r ≠ p := by rintro rfl; exact hp (List.mem_cons_of_mem _ hr)
      have hrq : r ≠ q := by rintro rfl; exact (List.nodup_cons.mp hnd).1 hr
      simp only [Function.update_of_ne hrq, Function.update_of_ne hrp]
    · exact Function.update_of_ne hj ..
    · have hrp : r ≠ p := by rintro rfl; exact hr List.mem_cons_self
      have hrq : r ≠ q := by rintro rfl; exact hr (List.mem_cons_of_mem _ List.mem_cons_self)
      simp only [Function.update_of_ne hrq, Function.update_of_ne hrp]

/-- The head of a slot is dropped. -/
theorem Holds.dropHead (h : Holds w i ((p, d) :: es)) (hi : 0 ≤ i ∧ i < N) :
    ∃ w', dropHead w i = .ok w' ∧ Holds w' i es ∧ w'.store p = w.store p ∧ Frame w w' i (addrs es) := by
  obtain ⟨⟨hp, hes⟩, hnd, hhead⟩ := h
  rw [first_cons] at hhead
  obtain ⟨hpes, hnd⟩ := List.nodup_cons.mp hnd
  obtain ⟨s', hset, hseg, hframe⟩ := hes.setPrevIf hnd none
  refine ⟨{ w with store := s', slots := Function.update w.slots i (first es none) }, ?_,
    ⟨hseg, hnd, Function.update_self ..⟩, hframe p hpes, ⟨rfl, fun j hj => ?_, hframe⟩⟩
  · simp [TimeWheel.dropHead, slot_ok hi, setSlot_ok hi, hhead, hp, hset]
  · exact Function.update_of_ne hj ..

/-- A timer behind the head of a slot is bypassed. -/
theorem Holds.bypass {q : Ptr} {dq : TwTimerData} (h : Holds w i (pre ++ (q, dq) :: (p, d) :: post)) :
    ∃ s', bypass w.store (some p) = .ok s' ∧
      Holds { w with store := s' } i (pre ++ (q, dq) :: post) ∧
      (∃ v, s' p = some v ∧ v.next = first post none) ∧
      Frame w { w with store := s' } i (addrs (pre ++ (q, dq) :: (p, d) :: post)) := by
  obtain ⟨hseg, hnd, hhead⟩ := h
  obtain ⟨s', hrun, hseg', hp, hframe⟩ := hseg.bypass hnd
  refine ⟨s', hrun, ⟨hseg', ?_, ?_⟩, hp, ⟨rfl, fun _ _ => rfl, hframe⟩⟩
  · rw [List.append_cons] at hnd ⊢
    exact (nodup_split hnd).1
  · rw [hhead]
    simp

/-- The members of a timer are written, and its links stay. -/
theorem Holds.setVal (h : Holds w i (pre ++ (p, d) :: post)) (d' : TwTimerData) :
    let w' := { w with store := Function.update w.store p (some ⟨d', last none pre, first post none⟩) }
    Holds w' i (pre ++ (p, d') :: post) ∧ Frame w w' i [p] := by
  have hpnew := not_mem_split h.nodup
  refine ⟨⟨h.seg.setVal (Function.update_self ..) fun q hq => ?_, ?_, ?_⟩, rfl, fun _ _ => rfl, fun q hq => ?_⟩
  · exact Function.update_of_ne (by rintro rfl; exact hpnew hq) ..
  · simpa using h.nodup
  · simpa using h.head
  · exact Function.update_of_ne (List.ne_of_not_mem_cons hq) ..

/-- A node that is not in the slot is freed. -/
theorem Holds.free (h : Holds w i es) (hp : p ∉ addrs es) :
    Holds { w with store := Function.update w.store p none } i es :=
  { h with seg := h.seg.congr fun _ hq => Function.update_of_ne (by rintro rfl; exact hp hq) .. }

theorem Frame.free {ps : List Ptr} (h : Frame w w' i ps) (hp : p ∈ ps) :
    Frame w { w' with store := Function.update w'.store p none } i ps :=
  { h with store := fun q hq =>
    (Function.update_of_ne (by rintro rfl; exact hq hp) ..).trans (h.store q hq) }

/-- `timer` is the head of the slot exactly when no node is in front of it. -/
theorem Holds.head_eq (h : Holds w i (pre ++ (p, d) :: post)) : some p = w.slots i ↔ pre = [] := by
  rw [h.head]
  cases pre with
  | nil => simp
  | cons e pre =>
    obtain ⟨q, dq⟩ := e
    have hp := (nodup_split h.nodup).2.1
    simp only [List.cons_append, first_cons, Option.some.injEq, reduceCtorEq, iff_false]
    rintro rfl
    simp at hp

/-- `del_timer` takes a timer out of its slot. -/
theorem delTimer_ok (h : Holds w i (pre ++ (p, d) :: post)) (hd : d.timeSlot = i)
    (hi : 0 ≤ i ∧ i < N) :
    ∃ w', delTimer w (some p) = .ok w' ∧ Holds w' i (pre ++ post) ∧ w'.store p = none ∧
      Frame w w' i (addrs (pre ++ (p, d) :: post)) := by
  have hhead := h.head_eq
  obtain ⟨-, hp, -⟩ := seg_split.mp h.seg
  have hpnew := not_mem_split h.nodup
  rcases List.eq_nil_or_concat pre with rfl | ⟨pre, ⟨q, dq⟩, rfl⟩
  · obtain ⟨w', hdrop, hholds, hkeep, hf⟩ := Holds.dropHead h hi
    refine ⟨_, ?_, hholds.free hpnew, Function.update_self .., (hf.mono ?_).free (by simp)⟩
    · have hslot : w.slots i = some p := h.head
      simp [delTimer, hp, hd, slot_ok hi, hslot, hdrop, hkeep ▸ hp]
    · simp
  · rw [List.concat_eq_append] at hhead hp hpnew ⊢
    have hne : ¬ some p = w.slots i := fun e => by simpa using hhead.mp e
    simp only [List.concat_eq_append, List.append_assoc, List.singleton_append] at h ⊢
    obtain ⟨s', hrun, hholds, ⟨v, hv, -⟩, hf⟩ := h.bypass
    refine ⟨_, ?_, hholds.free (by simpa using hpnew), Function.update_self .., hf.free (by simp)⟩
    simp [delTimer, hp, hd, slot_ok hi, hne, hrun, hv]

/-- What a visit does to the timers of a slot: those with rounds to wait stay, with one
    round less. -/
def keep (es : List Entry) : List Entry :=
  (es.filter fun e => 0 < e.2.rotation).map fun e => (e.1, { e.2 with rotation := e.2.rotation - 1 })

/-- The others are called. -/
def calls (es : List Entry) : List Call :=
  es.filterMap fun e =>
    if 0 < e.2.rotation then none else e.2.cbFunc.map (⟨e.1, ·, e.2.userData⟩)

theorem keep_cons_wait (hr : 0 < d.rotation) :
    keep ((p, d) :: es) = (p, { d with rotation := d.rotation - 1 }) :: keep es := by
  simp [keep, hr]

theorem keep_cons_due (hr : ¬ 0 < d.rotation) : keep ((p, d) :: es) = keep es := by
  simp [keep, hr]

theorem calls_cons_wait (hr : 0 < d.rotation) : calls ((p, d) :: es) = calls es := by
  simp [calls, hr]

theorem calls_cons_due {f : Nat} (hr : ¬ 0 < d.rotation) (hf : d.cbFunc = some f) :
    calls ((p, d) :: es) = ⟨p, f, d.userData⟩ :: calls es := by
  simp [calls, hr, hf]

theorem keep_addrs (es : List Entry) : List.Sublist (addrs (keep es)) (addrs es) := by
  rw [addrs, keep, List.map_map]
  exact (List.filter_sublist (l := es)).map Prod.fst

/-- A timer without rounds to wait is called, and then taken out of the list that the callback
    has left. -/
theorem tickLoop_call {callback : Callback} {w₀ : TimeWheel} {f : Nat}
    (hc : 0 ≤ w.curSlot ∧ w.curSlot < N) (hp : ∃ v, w.store p = some v ∧ v.val = d)
    (hr : ¬ 0 < d.rotation) (hf : d.cbFunc = some f)
    (hcall : callback ⟨p, f, d.userData⟩ w = .ok w₀) (hcur : w₀.curSlot = w.curSlot)
    (h : Holds w₀ w.curSlot (pre ++ (p, d) :: post)) :
    ∃ w₁, (∀ n, tickLoop callback (n + 1) w (some p) = do
        let (w', cs) ← tickLoop callback n w₁ (first post none)
        return (w', ⟨p, f, d.userData⟩ :: cs)) ∧
      Holds w₁ w.curSlot (pre ++ post) ∧ w₁.store p = none ∧
      Frame w₀ w₁ w.curSlot (addrs (pre ++ (p, d) :: post)) := by
  obtain ⟨v, hv, rfl⟩ := hp
  have hhead := h.head_eq
  obtain ⟨-, hp, -⟩ := seg_split.mp h.seg
  have hpnew := not_mem_split h.nodup
  rcases List.eq_nil_or_concat pre with rfl | ⟨pre, ⟨q, dq⟩, rfl⟩
  · have hslot : w₀.slots w.curSlot = some p := h.head
    obtain ⟨w₁, hdrop, hholds, hkeep, hf₁⟩ := Holds.dropHead h hc
    have hcur₁ := hf₁.cur.trans hcur
    have hslot₁ : w₁.slots w.curSlot = first post none := hholds.head
    refine ⟨_, fun n => ?_, hholds.free hpnew, Function.update_self .., (hf₁.mono ?_).free (by simp)⟩
    · simp [tickLoop, hv, hr, callOf, hf, hcall, hcur, slot_ok hc, hslot, hdrop, hkeep ▸ hp, hcur₁, hslot₁]
    · simp
  · rw [List.concat_eq_append] at hhead hp hpnew ⊢
    have hne : ¬ some p = w₀.slots w.curSlot := fun e => by simpa using hhead.mp e
    simp only [List.concat_eq_append, List.append_assoc, List.singleton_append] at h ⊢
    obtain ⟨s', hrun, hholds, ⟨v', hv', hnext⟩, hf₁⟩ := h.bypass
    refine ⟨_, fun n => ?_, hholds.free (by simpa using hpnew), Function.update_self ..,
      hf₁.free (by simp)⟩
    simp [tickLoop, hv, hr, callOf, hf, hcall, hcur, slot_ok hc, hne, hrun, hv', hnext]

/-- A timer without rounds to wait is called and taken out. -/
theorem tickLoop_due {f : Nat} (hc : 0 ≤ w.curSlot ∧ w.curSlot < N)
    (h : Holds w w.curSlot (pre ++ (p, d) :: post)) (hr : ¬ 0 < d.rotation) (hf : d.cbFunc = some f) :
    ∃ w₁, (∀ n, tickLoop idle (n + 1) w (some p) = do
        let (w', cs) ← tickLoop idle n w₁ (first post none)
        return (w', ⟨p, f, d.userData⟩ :: cs)) ∧
      Holds w₁ w.curSlot (pre ++ post) ∧ w₁.store p = none ∧
      Frame w w₁ w.curSlot (addrs (pre ++ (p, d) :: post)) :=
  tickLoop_call hc ⟨_, (seg_split.mp h.seg).2.1, rfl⟩ hr hf rfl rfl h

/-- A timer with rounds to wait gets one less, and the walk goes on. -/
theorem tickLoop_wait (callback : Callback) (h : Holds w i (pre ++ (p, d) :: post)) (hr : 0 < d.rotation) :
    ∃ w₁, (∀ n, tickLoop callback (n + 1) w (some p) = tickLoop callback n w₁ (first post none)) ∧
      Holds w₁ i (pre ++ (p, { d with rotation := d.rotation - 1 }) :: post) ∧ Frame w w₁ i [p] := by
  obtain ⟨-, hp, -⟩ := seg_split.mp h.seg
  obtain ⟨hholds, hframe⟩ := h.setVal { d with rotation := d.rotation - 1 }
  exact ⟨_, fun n => by simp [tickLoop, hp, hr], hholds, hframe⟩

/-- The loop of `tick` from a node on: the timers before it have been visited. -/
theorem tickLoop_ok (hc : 0 ≤ w.curSlot ∧ w.curSlot < N) (h : Holds w w.curSlot (pre ++ post))
    (hcb : ∀ e ∈ post, e.2.cbFunc ≠ none) :
    ∃ w', (∀ n, post.length < n → tickLoop idle n w (first post none) = .ok (w', calls post)) ∧
      Holds w' w.curSlot (pre ++ keep post) ∧ Frame w w' w.curSlot (addrs (pre ++ post)) ∧
      ∀ q ∈ addrs post, q ∉ addrs (keep post) → w'.store q = none := by
  induction post generalizing w pre with
  | nil =>
    refine ⟨w, ?_, h, ⟨rfl, fun _ _ => rfl, fun _ _ => rfl⟩, by simp⟩
    rintro (_ | n) hn
    · cases hn
    rfl
  | cons e post ih =>
    obtain ⟨p, d⟩ := e
    rw [List.forall_mem_cons] at hcb
    have hpnew := not_mem_split h.nodup
    by_cases hr : 0 < d.rotation
    · obtain ⟨w₁, hrun₁, h₁, hf₁⟩ := tickLoop_wait idle h hr
      rw [← hf₁.cur] at hc h₁
      rw [List.append_cons] at h₁
      obtain ⟨w', hrun, hholds, hf, hgone⟩ := ih hc h₁ hcb.2
      rw [hf₁.cur] at hholds hf
      refine ⟨w', ?_, ?_, (hf₁.mono (by simp)).trans (hf.mono (by simp)), ?_⟩
      · rintro (_ | n) hn
        · cases hn
        rw [calls_cons_wait hr, first_cons, hrun₁, hrun n (Nat.lt_of_succ_lt_succ hn)]
      · rw [keep_cons_wait hr, List.append_cons]
        exact hholds
      · rw [keep_cons_wait hr]
        simp only [addrs_cons, List.mem_cons, not_or]
        rintro q (rfl | hq) hq'
        · exact absurd rfl hq'.1
        · exact hgone q hq hq'.2
    · obtain ⟨f, hcbf⟩ := Option.ne_none_iff_exists'.mp hcb.1
      obtain ⟨w₁, hrun₁, h₁, hgone₁, hf₁⟩ := tickLoop_due hc h hr hcbf
      rw [← hf₁.cur] at hc h₁
      obtain ⟨w', hrun, hholds, hf, hgone⟩ := ih hc h₁ hcb.2
      rw [hf₁.cur] at hholds hf
      refine ⟨w', ?_, ?_, hf₁.trans (hf.mono ?_), ?_⟩
      · rintro (_ | n) hn
        · cases hn
        rw [first_cons, hrun₁, hrun n (Nat.lt_of_succ_lt_succ hn), calls_cons_due hr hcbf]
        rfl
      · rwa [keep_cons_due hr]
      · simp
      · rw [keep_cons_due hr]
        simp only [addrs_cons, List.mem_cons]
        rintro q (rfl | hq) hq'
        · rw [hf.store q hpnew, hgone₁]
        · exact hgone q hq hq'

theorem calls_filter_none (hq : q ∉ addrs es) : (calls es).filter (fun c => c.timer = q) = [] := by
  rw [List.filter_eq_nil_iff]
  intro c hc
  obtain ⟨⟨p, d⟩, he, hc⟩ := List.mem_filterMap.mp hc
  have hp : c.timer = p := by
    split at hc
    · cases hc
    · obtain ⟨f, -, rfl⟩ := Option.map_eq_some_iff.mp hc
      rfl
  simp only [hp, decide_eq_true_eq]
  rintro rfl
  exact hq (mem_addrs he)

/-- A visit calls a timer of the slot at most once. -/
theorem calls_filter {f : Nat} (hnd : (addrs es).Nodup) (he : (q, d) ∈ es) (hf : d.cbFunc = some f) :
    (calls es).filter (fun c => c.timer = q) =
      if 0 < d.rotation then [] else [⟨q, f, d.userData⟩] := by
  obtain ⟨pre, post, rfl⟩ := List.append_of_mem he
  obtain ⟨-, hpre, hpost⟩ := nodup_split hnd
  have happend : calls (pre ++ (q, d) :: post) = calls pre ++ calls ((q, d) :: post) :=
    List.filterMap_append
  rw [happend, List.filter_append, calls_filter_none hpre, List.nil_append]
  by_cases hr : 0 < d.rotation
  · rw [calls_cons_wait hr, calls_filter_none hpost, if_pos hr]
  · rw [calls_cons_due hr hf, List.filter_cons, calls_filter_none hpost, if_neg hr]
    simp

theorem Inv.advance (h : Inv w ls) (hc : 0 ≤ c ∧ c < N) : Inv { w with curSlot := c } ls where
  cur := hc
  holds i := ⟨(h.holds i).seg, (h.holds i).nodup, (h.holds i).head⟩
  placed := h.placed
  range := h.range
  live := h.live

theorem keep_placed (h : ∀ e ∈ es, Placed c e.2) : ∀ e ∈ keep es, Placed c e.2 := by
  intro e' he'
  obtain ⟨e, hmem, rfl⟩ := List.mem_map.mp he'
  obtain ⟨he, hr⟩ := List.mem_filter.mp hmem
  obtain ⟨hslot, -, hcb⟩ := h e he
  exact ⟨hslot, Int.le_sub_one_of_lt (by simpa using hr), hcb⟩

theorem mem_keep (he : (q, d) ∈ es) (hr : 0 < d.rotation) :
    (q, { d with rotation := d.rotation - 1 }) ∈ keep es :=
  List.mem_map.mpr ⟨_, List.mem_filter.mpr ⟨he, by simpa using hr⟩, rfl⟩

theorem not_mem_keep (hnd : (addrs es).Nodup) (he : (q, d) ∈ es) (hr : ¬ 0 < d.rotation) :
    q ∉ addrs (keep es) := by
  obtain ⟨pre, post, rfl⟩ := List.append_of_mem he
  obtain ⟨-, hpre, hpost⟩ := nodup_split hnd
  intro hq
  obtain ⟨d', hd'⟩ := exists_mem hq
  obtain ⟨⟨q', d''⟩, hmem, heq⟩ := List.mem_map.mp hd'
  obtain ⟨hmem, hr'⟩ := List.mem_filter.mp hmem
  obtain rfl : q' = q := congrArg Prod.fst heq
  rcases List.mem_append.mp hmem with hmem | hmem
  · exact hpre (mem_addrs hmem)
  rcases List.mem_cons.mp hmem with hmem | hmem
  · cases hmem
    exact hr (by simpa using hr')
  · exact hpost (mem_addrs hmem)

end TimeWheel

end Timers
