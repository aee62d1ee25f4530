-- SUMMARY: The timer wheel of time_wheel_timer.cpp: its nodes and slots, and add_timer, del_timer and tick as sequences of pointer writes.
import LinuxLearning.Common.DoublyLinked

/-!
# The timer wheel

Every slot is the head of a doubly linked list of timers. A timer is kept in the slot
that the wheel reaches when it is due, with the number of rounds to wait before. The
`ticks` that `add_timer` assigns without a declaration is read as a local variable.
-/

namespace Timers

open Memory DoublyLinked

/-- The members of `tw_timer` other than its links. The constructor leaves the callback
    unset, and the client that gets the timer sets it. -/
structure TwTimerData where
  rotation : Int
  timeSlot : Int
  cbFunc : Option Nat
  userData : Option Ptr
deriving Repr, DecidableEq

abbrev TwTimer := Node TwTimerData

/-- The nodes and the wheel object. -/
structure TimeWheel where
  store : Store TwTimer
  slots : Int → Option Ptr
  curSlot : Int

namespace TimeWheel

def N : Int := 60

def SI : Int := 1

/-- The constructor. -/
def init : TimeWheel where
  store := fun _ => none
  slots := fun _ => none
  curSlot := 0

/-- `slots[i]`. -/
def slot (w : TimeWheel) (i : Int) : Except Fault (Option Ptr) :=
  if 0 ≤ i ∧ i < N then return w.slots i else throw (.outOfBounds i)

/-- `slots[i] = x`. -/
def setSlot (w : TimeWheel) (i : Int) (x : Option Ptr) : Except Fault TimeWheel :=
  if 0 ≤ i ∧ i < N then return { w with slots := Function.update w.slots i x }
  else throw (.outOfBounds i)

/-- The `ticks` of `add_timer`. -/
def ticksOf (timeout : Int) : Int :=
  if timeout < SI then 1 else timeout.tdiv SI

/-- `add_timer`, where `new` gives the address `p`. -/
def addTimer (w : TimeWheel) (p : Ptr) (timeout : Int) : Except Fault (TimeWheel × Option Ptr) := do
  if timeout < 0 then return (w, none)
  else
    let ticks := ticksOf timeout
    let rotation := ticks.tdiv N
    let ts := (w.curSlot + ticks.tmod N).tmod N
    let timer := some p
    let w := { w with store := Function.update w.store p (some ⟨⟨rotation, ts, none, none⟩, none, none⟩) }
    if (← slot w ts) = none then
      return (← setSlot w ts timer, timer)
    else
      let s ← setNext w.store timer (← slot w ts)
      let s ← setPrev s (← slot w ts) timer
      return (← setSlot { w with store := s } ts timer, timer)

/-- `slots[i] = slots[i]->next`, and `slots[i]->prev = NULL` if there is one. -/
def dropHead (w : TimeWheel) (i : Int) : Except Fault TimeWheel := do
  let w ← setSlot w i (← deref w.store (← slot w i)).next
  return { w with store := ← setPrevIf w.store (← slot w i) none }

def delTimer (w : TimeWheel) (timer : Option Ptr) : Except Fault TimeWheel := do
  if timer = none then return w
  else
    let ts := (← deref w.store timer).val.timeSlot
    if timer = (← slot w ts) then
      let w ← dropHead w ts
      return { w with store := ← free w.store timer }
    else
      let s ← bypass w.store timer
      return { w with store := ← free s timer }

/-- The call of a callback: for which timer, of which function and on what. -/
structure Call where
  timer : Ptr
  cbFunc : Nat
  userData : Option Ptr
deriving Repr, DecidableEq

/-- What running a callback does to the wheel. -/
abbrev Callback := Call → TimeWheel → Except Fault TimeWheel

/-- A callback that does not touch the wheel. -/
def idle : Callback := fun _ w => return w

/-- `tmp->cb_func(tmp->user_data)`: the call that is made. -/
def callOf (p : Ptr) (t : TwTimerData) : Except Fault Call :=
  match t.cbFunc with
  | none => throw .nullPointer
  | some f => return ⟨p, f, t.userData⟩

/-- The loop of `tick`, and the calls it makes. The fuel stands for nothing in the source. -/
def tickLoop (callback : Callback) :
    Nat → TimeWheel → Option Ptr → Except Fault (TimeWheel × List Call)
  | 0, _, _ => throw .outOfFuel
  | _ + 1, w, none => return (w, [])
  | n + 1, w, some p => do
    let t ← deref w.store (some p)
    if 0 < t.val.rotation then
      let s ← modify w.store (some p) fun v =>
        { v with val := { v.val with rotation := v.val.rotation - 1 } }
      tickLoop callback n { w with store := s } (← deref s (some p)).next
    else
      let call ← callOf p t.val
      let w ← callback call w
      if some p = (← slot w w.curSlot) then
        let w ← dropHead w w.curSlot
        let w := { w with store := ← free w.store (some p) }
        let (w, calls) ← tickLoop callback n w (← slot w w.curSlot)
        return (w, call :: calls)
      else
        let s ← bypass w.store (some p)
        let tmp2 := (← deref s (some p)).next
        let w := { w with store := ← free s (some p) }
        let (w, calls) ← tickLoop callback n w tmp2
        return (w, call :: calls)

def tick (callback : Callback) (n : Nat) (w : TimeWheel) : Except Fault (TimeWheel × List Call) := do
  let (w, calls) ← tickLoop callback n w (← slot w w.curSlot)
  return ({ w with curSlot := (w.curSlot + 1).tmod N }, calls)

end TimeWheel

end Timers
