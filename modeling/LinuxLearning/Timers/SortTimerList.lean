-- SUMMARY: The sorted timer list of sort_timer_list.cpp: its nodes, and add_timer, adjust_timer, del_timer and tick as sequences of pointer writes.
import LinuxLearning.Common.DoublyLinked

/-!
# The sorted timer list

The list owns nodes in a store, and every access goes through a pointer, so that a
null pointer or a deleted timer on the way is a fault. The loops have fuel, which
stands for nothing in the source: any amount above the length of the list gives the
same result.
-/

namespace Timers

open Memory DoublyLinked

/-- The members of `util_timer` other than its links. -/
structure TimerData where
  expire : Int
  cbFunc : Nat
  userData : Option Ptr
deriving Repr, DecidableEq

abbrev UtilTimer := Node TimerData

structure SortTimerList where
  head : Option Ptr
  tail : Option Ptr
deriving Repr, DecidableEq

namespace SortTimerList

/-- The nodes and the list object. -/
abbrev Result := Except Fault (Store UtilTimer × SortTimerList)

/-- `x->expire`. -/
def expire (s : Store UtilTimer) (x : Option Ptr) : Except Fault Int := do
  return (← deref s x).val.expire

/-- The loop of `add_timer(timer, list_head)`, and the code behind it: `tmp` is null
    there only if the loop did not insert. -/
def addAfterLoop (timer : Option Ptr) :
    Nat → Store UtilTimer → SortTimerList → Option Ptr → Option Ptr → Result
  | 0, _, _, _, _ => throw .outOfFuel
  | n + 1, s, l, prev, tmp => do
    if tmp = none then
      let s ← setNext s prev timer
      let s ← setNext s timer none
      let s ← setPrev s timer prev
      return (s, { l with tail := timer })
    else if (← expire s timer) < (← expire s tmp) then
      let s ← setNext s prev timer
      let s ← setNext s timer tmp
      let s ← setPrev s tmp timer
      let s ← setPrev s timer prev
      return (s, l)
    else addAfterLoop timer n s l tmp (← deref s tmp).next

/-- `add_timer(timer, list_head)`. -/
def addAfter (n : Nat) (s : Store UtilTimer) (l : SortTimerList) (timer listHead : Option Ptr) :
    Result := do
  addAfterLoop timer n s l listHead (← deref s listHead).next

def addTimer (n : Nat) (s : Store UtilTimer) (l : SortTimerList) (timer : Option Ptr) : Result := do
  if timer = none then return (s, l)
  else if l.head = none then return (s, { head := timer, tail := timer })
  else if (← expire s timer) < (← expire s l.head) then
    let s ← setNext s timer l.head
    let s ← setPrev s l.head timer
    return (s, { l with head := timer })
  else addAfter n s l timer l.head

def adjustTimer (n : Nat) (s : Store UtilTimer) (l : SortTimerList) (timer : Option Ptr) :
    Result := do
  if timer = none then return (s, l)
  else
    let tmp := (← deref s timer).next
    if tmp = none then return (s, l)
    else if (← expire s timer) < (← expire s tmp) then return (s, l)
    else if timer = l.head then
      let l := { l with head := (← deref s l.head).next }
      let s ← setPrev s l.head none
      let s ← setNext s timer none
      addAfter n s l timer l.head
    else
      let t ← deref s timer
      let s ← setNext s t.prev t.next
      let t ← deref s timer
      let s ← setPrev s t.next t.prev
      addAfter n s l timer (← deref s timer).next

def delTimer (s : Store UtilTimer) (l : SortTimerList) (timer : Option Ptr) : Result := do
  if timer = none then return (s, l)
  else if timer = l.head ∧ timer = l.tail then
    let s ← free s timer
    return (s, { head := none, tail := none })
  else if timer = l.head then
    let l := { l with head := (← deref s l.head).next }
    let s ← setPrev s l.head none
    let s ← free s timer
    return (s, l)
  else if timer = l.tail then
    let l := { l with tail := (← deref s l.tail).prev }
    let s ← setNext s l.tail none
    let s ← free s timer
    return (s, l)
  else
    let t ← deref s timer
    let s ← setNext s t.prev t.next
    let t ← deref s timer
    let s ← setPrev s t.next t.prev
    let s ← free s timer
    return (s, l)

/-- The timers that `tick` has fired, in the order of their callbacks. -/
abbrev Fired := List (Ptr × TimerData)

/-- `head = tmp->next`, `head->prev = NULL` if there is one, and `delete tmp`. -/
def popHead (s : Store UtilTimer) (l : SortTimerList) (tmp : Option Ptr) : Result := do
  let l := { l with head := (← deref s tmp).next }
  let s ← if l.head = none then pure s else setPrev s l.head none
  let s ← free s tmp
  return (s, l)

/-- The loop of `tick` at time `cur`. A callback does not touch the list. -/
def tickLoop (cur : Int) : Nat → Store UtilTimer → SortTimerList → Option Ptr →
    Except Fault (Store UtilTimer × SortTimerList × Fired)
  | 0, _, _, _ => throw .outOfFuel
  | _ + 1, s, l, none => return (s, l, [])
  | n + 1, s, l, some p => do
    let t ← deref s (some p)
    if cur < t.val.expire then return (s, l, [])
    else
      let (s, l) ← popHead s l (some p)
      let (s, l, fired) ← tickLoop cur n s l l.head
      return (s, l, (p, t.val) :: fired)

def tick (n : Nat) (s : Store UtilTimer) (l : SortTimerList) (cur : Int) :
    Except Fault (Store UtilTimer × SortTimerList × Fired) := do
  if l.head = none then return (s, l, []) else tickLoop cur n s l l.head

end SortTimerList

end Timers
