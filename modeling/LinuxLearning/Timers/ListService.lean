-- SUMMARY: The sorted timer list as an alarm service: whatever its users ask for, it calls them when their alarms are due.
import LinuxLearning.Timers.Service
import LinuxLearning.Timers.SortedRuns

/-!
# The timer list as a service

Users start, put off and stop their timers, and the list ticks. Every run is one of the alarm
component, where a tick calls the users whose alarms are due and no others.
-/

namespace Timers

open Memory DoublyLinked Transition Alarms

namespace SortTimerList

def fields : Fields TimerData where
  expire := TimerData.expire
  cbFunc d := some d.cbFunc
  userData := TimerData.userData

/-- The list, its nodes, and the timer of each user that has one. -/
structure Client where
  store : Store UtilTimer
  list : SortTimerList
  timer : User → Option Ptr

namespace Client

def init : Client :=
  ⟨fun _ => none, ⟨none, none⟩, fun _ => none⟩

def look (c : Client) (p : Ptr) : Option TimerData :=
  (c.store p).map Node.val

def alarms (c : Client) : Alarms.State User Nat :=
  fields.alarms c.timer c.look

/-- What the client does for a request, and the calls that are made. `new` answers
    with `p`. -/
def exec (n : Nat) (p : Ptr) (c : Client) : Request User Nat → Except Fault (Client × List (User × Nat))
  | .start u e f => do
    let s := Function.update c.store p (some ⟨⟨e, f, u⟩, none, none⟩)
    let (s, l) ← addTimer n s c.list (some p)
    return (⟨s, l, Function.update c.timer u (some p)⟩, [])
  | .restart u e => do
    let s ← setExpire c.store (c.timer u) e
    let (s, l) ← adjustTimer n s c.list (c.timer u)
    return (⟨s, l, c.timer⟩, [])
  | .stop u => do
    let (s, l) ← delTimer c.store c.list (c.timer u)
    return (⟨s, l, Function.update c.timer u none⟩, [])
  | .tick cur => do
    let (s, l, fired) ← tick n c.store c.list cur
    let calls := fired.map fun x => (x.2.userData, x.2.cbFunc)
    return (⟨s, l, forget calls c.timer⟩, calls)

/-- A request that the service allows, with an unused address from `new`. -/
def Step (c : Client) (e : Event User Nat) (c' : Client) : Prop :=
  e.1.Allowed c.alarms ∧ ∃ p, c.store p = none ∧ Yields (fun n => exec n p c e.1) (c', e.2)

variable {c c' : Client} {es es' pre post : List Entry} {table : User → Option (Ptr × Int × Nat)} {p : Ptr}
  {u : User} {e : Int} {f : Nat}

/-- The nodes represent a sorted list of timers, which are those of the users. -/
structure Inv (c : Client) (es : List Entry) (table : User → Option (Ptr × Int × Nat)) : Prop where
  rep : Represents c.store c.list es
  sorted : Sorted es
  kept : fields.Kept c.timer c.look (Multiset.ofList es) table

theorem init_inv : Inv init [] fun _ => none :=
  ⟨⟨trivial, List.nodup_nil, rfl, by simp⟩, .nil, .empty⟩

theorem calls_fired (fired : List Entry) :
    fields.calls fired = fired.map fun x => (x.2.userData, x.2.cbFunc) :=
  congrFun (List.filterMap_eq_map (f := fun x : Entry => (x.2.userData, x.2.cbFunc))) fired

theorem alarm_mk (e : Int) (f : Nat) (u : User) : fields.alarm ⟨e, f, u⟩ = some (u, e, f) := rfl

/-- The timers in the list are live. -/
theorem look_of_rep (c : Client) (hrep : Represents c.store c.list es) {ts : Multiset Entry}
    (hts : Multiset.ofList es = ts) : ∀ x ∈ ts, c.look x.1 = some x.2 := by
  intro x hx
  rw [← hts, Multiset.mem_coe] at hx
  obtain ⟨v, hv, hval⟩ := hrep.seg.get hx
  exact Option.map_eq_some_iff.mpr ⟨v, hv, hval⟩

theorem Inv.start (h : Inv c es table) (hu : c.alarms u = none) (hp : c.store p = none) (e : Int) (f : Nat) :
    ∃ c' es' table', Yields (fun n => exec n p c (.start u e f)) (c', []) ∧ Inv c' es' table' ∧
      Alarms.Step c.alarms (.start u e f, []) c'.alarms := by
  have hnew : p ∉ addrs es := by
    intro hmem
    obtain ⟨v, hv⟩ := h.rep.seg.live hmem
    rw [hp] at hv
    cases hv
  obtain ⟨s', l', hrun, hrep, -⟩ := addTimer_ok (d := ⟨e, f, u⟩) (h.rep.update hnew _) hnew (Function.update_self ..)
  have hts : Multiset.ofList (insertSorted (p, ⟨e, f, u⟩) es) = (p, ⟨e, f, u⟩) ::ₘ Multiset.ofList es :=
    Multiset.coe_eq_coe.mpr (insertSorted_perm _ es)
  obtain ⟨hkept, hstep⟩ := h.kept.start (h.kept.timer_none hu) (alarm_mk e f u)
    (look_of_rep ⟨s', l', Function.update c.timer u (some p)⟩ hrep hts)
  rw [← hts] at hkept
  refine ⟨⟨s', l', Function.update c.timer u (some p)⟩, _, _, ⟨es.length + 1, fun n hn => ?_⟩,
    ⟨hrep, h.sorted.insert _, hkept⟩, hstep⟩
  simp [exec, hrun n hn]

/-- The timer of a user is in the list. -/
theorem Inv.split (h : Inv c es table) (hu : c.alarms u = some (e, f)) :
    ∃ p pre post, c.timer u = some p ∧ es = pre ++ (p, ⟨e, f, u⟩) :: post ∧
      fields.Kept c.timer c.look ((p, ⟨e, f, u⟩) ::ₘ Multiset.ofList (pre ++ post)) table := by
  obtain ⟨p, t, ts, hp, hts, ht⟩ := h.kept.split hu
  obtain rfl : t = ⟨e, f, u⟩ := by
    cases t
    cases ht
    rfl
  have hmem : (p, ⟨e, f, u⟩) ∈ es := Multiset.mem_coe.mp (hts ▸ Multiset.mem_cons_self ..)
  obtain ⟨pre, post, rfl⟩ := List.append_of_mem hmem
  refine ⟨p, pre, post, hp, rfl, ?_⟩
  rw [Multiset.cons_coe, ← Multiset.coe_eq_coe.mpr List.perm_middle]
  exact h.kept

theorem Inv.restart (h : Inv c es table) {e' : Int} (hu : c.alarms u = some (e, f)) (hle : e ≤ e') (p : Ptr) :
    ∃ c' es' table', Yields (fun n => exec n p c (.restart u e')) (c', []) ∧ Inv c' es' table' ∧
      Alarms.Step c.alarms (.restart u e', []) c'.alarms := by
  obtain ⟨q, pre, post, hq, rfl, hkept⟩ := h.split hu
  obtain ⟨s₁, hset, hrep₁, -⟩ := h.rep.setExpire (e := e')
  obtain ⟨s', l', hrun, hrep, -⟩ := adjustTimer_ok hrep₁
  have hts : Multiset.ofList (pre ++ insertSorted (q, ⟨e', f, u⟩) post) =
      (q, ⟨e', f, u⟩) ::ₘ Multiset.ofList (pre ++ post) :=
    Multiset.coe_eq_coe.mpr (((insertSorted_perm _ post).append_left pre).trans List.perm_middle)
  obtain ⟨hkept', hstep⟩ := hkept.restart (alarm_mk e f u) hle (alarm_mk e' f u) rfl
    (look_of_rep ⟨s', l', c.timer⟩ hrep hts)
  have hsame : Function.update c.timer u (some q) = c.timer := by
    rw [← hq, Function.update_eq_self]
  rw [hsame] at hkept' hstep
  rw [← hts] at hkept'
  refine ⟨⟨s', l', c.timer⟩, _, _, ⟨post.length + 1, fun n hn => ?_⟩,
    ⟨hrep, h.sorted.adjust hle, hkept'⟩, hstep⟩
  simp [exec, hq, hset, hrun n hn]

theorem Inv.stop (h : Inv c es table) (hu : c.alarms u = some (e, f)) (p : Ptr) :
    ∃ c' es' table', Yields (fun n => exec n p c (.stop u)) (c', []) ∧ Inv c' es' table' ∧
      Alarms.Step c.alarms (.stop u, []) c'.alarms := by
  obtain ⟨q, pre, post, hq, rfl, hkept⟩ := h.split hu
  obtain ⟨s', l', hrun, hrep, -, -⟩ := delTimer_ok h.rep
  obtain ⟨hkept', hstep⟩ := hkept.stop (alarm_mk e f u) rfl
    (look_of_rep ⟨s', l', Function.update c.timer u none⟩ hrep rfl)
  refine ⟨⟨s', l', Function.update c.timer u none⟩, _, _, ⟨0, fun n _ => ?_⟩,
    ⟨hrep, h.sorted.sublist (by simp), hkept'⟩, hstep⟩
  simp [exec, hq, hrun]

theorem Inv.tick (h : Inv c es table) (cur : Int) (p : Ptr) :
    ∃ c' calls es' table', Yields (fun n => exec n p c (.tick cur)) (c', calls) ∧ Inv c' es' table' ∧
      Alarms.Step c.alarms (.tick cur, calls) c'.alarms := by
  obtain ⟨s', l', hrun, hrep, -, -⟩ := tick_ok cur h.rep
  obtain ⟨htake, hdrop⟩ := h.sorted.takeWhile_due cur
  have hdue : Multiset.ofList (es.takeWhile (due cur)) =
      (Multiset.ofList es).filter fun x => fields.expire x.2 ≤ cur := by
    rw [htake, Multiset.filter_coe]
    rfl
  have hrest : Multiset.ofList (es.dropWhile (due cur)) =
      (Multiset.ofList es).filter fun x => cur < fields.expire x.2 := by
    rw [hdrop, Multiset.filter_coe]
    congr 2
    funext x
    show (!decide (x.2.expire ≤ cur)) = decide (cur < x.2.expire)
    rw [← decide_not, decide_eq_decide, not_le]
  obtain ⟨timer, htimer⟩ : ∃ timer, timer = forget (fields.calls (es.takeWhile (due cur))) c.timer := ⟨_, rfl⟩
  obtain ⟨hkept, hstep⟩ := h.kept.tick hdue (h.sorted.sublist (List.takeWhile_sublist _)) hrest
    (look_of_rep ⟨s', l', timer⟩ hrep rfl)
  rw [← htimer] at hkept hstep
  rw [calls_fired] at htimer hstep
  refine ⟨⟨s', l', timer⟩, _, _, _, ⟨es.length + 1, fun n hn => ?_⟩,
    ⟨hrep, h.sorted.sublist (List.dropWhile_sublist _), hkept⟩, hstep⟩
  simp [exec, hrun n hn, htimer]

/-- A request that is allowed returns, keeps the invariant, and does what it is for. -/
theorem Inv.exec (h : Inv c es table) {r : Request User Nat} (hallowed : r.Allowed c.alarms)
    (hp : c.store p = none) :
    ∃ c' calls es' table', Yields (fun n => Client.exec n p c r) (c', calls) ∧ Inv c' es' table' ∧
      Alarms.Step c.alarms (r, calls) c'.alarms := by
  cases r with
  | start u e f =>
    obtain ⟨c', es', table', hrun, hinv, hstep⟩ := h.start hallowed hp e f
    exact ⟨c', [], es', table', hrun, hinv, hstep⟩
  | restart u e =>
    obtain ⟨a, hu, hle⟩ := hallowed
    obtain ⟨c', es', table', hrun, hinv, hstep⟩ := h.restart hu hle p
    exact ⟨c', [], es', table', hrun, hinv, hstep⟩
  | stop u =>
    obtain ⟨a, hu⟩ := Option.isSome_iff_exists.mp hallowed
    obtain ⟨c', es', table', hrun, hinv, hstep⟩ := h.stop hu p
    exact ⟨c', [], es', table', hrun, hinv, hstep⟩
  | tick cur => exact h.tick cur p

theorem Step.alarms {ev : Event User Nat} (hstep : Step c ev c') (h : ∃ es table, Inv c es table) :
    Alarms.Step c.alarms ev c'.alarms ∧ ∃ es table, Inv c' es table := by
  obtain ⟨es, table, h⟩ := h
  obtain ⟨hallowed, p, hp, hrun⟩ := hstep
  obtain ⟨c₁, calls, es₁, table₁, hrun₁, hinv, hstep⟩ := h.exec hallowed hp
  cases hrun.unique hrun₁
  exact ⟨hstep, es₁, table₁, hinv⟩

/-- A run of the users is one of the alarm component. -/
theorem run_alarms {evs : List (Event User Nat)} (hrun : Run Step init evs c) :
    Run Alarms.Step (fun _ => none) evs c.alarms ∧ ∃ es table, Inv c es table := by
  have hsim := hrun.simulate Client.alarms id (fun _ _ _ h hstep => hstep.alarms h) ⟨_, _, init_inv⟩
  rwa [List.map_id] at hsim

/-- Every run of the users of the list is one of the alarm component, where a tick calls the users
    whose alarms are due, each once and the earlier ones first, and no others. The next request
    that it allows returns. -/
theorem list_serves {evs : List (Event User Nat)} {c : Client} (hrun : Run Step init evs c) :
    Run Alarms.Step (fun _ => none) evs c.alarms ∧
      ∀ r p, r.Allowed c.alarms → c.store p = none → ∃ calls c', Step c (r, calls) c' := by
  obtain ⟨halarms, es, table, hinv⟩ := run_alarms hrun
  refine ⟨halarms, fun r p hallowed hp => ?_⟩
  obtain ⟨c', calls, -, -, hstep, -⟩ := hinv.exec hallowed hp
  exact ⟨calls, c', hallowed, p, hp, hstep⟩

theorem Step.of_exec (r : Request User Nat) (calls : List (User × Nat)) (p : Ptr) (hallowed : r.Allowed c.alarms)
    (hp : c.store p = none) (k : Nat) (h : ∀ n, Client.exec (n + k) p c r = .ok (c', calls)) : Step c (r, calls) c' :=
  ⟨hallowed, p, hp, Yields.of_add k h⟩

/-- A user puts its timer off behind the one of another, which is called first. -/
def putOff : List (Event User Nat) :=
  [(.start (some 1) 5 8, []), (.start (some 2) 6 9, []), (.restart (some 1) 7, []), (.tick 6, [(some 2, 9)]),
    (.stop (some 1), [])]

theorem putOff_run : ∃ c, Run Step init putOff c := by
  apply Exists.intro
  apply Run.cons (Step.of_exec (.start (some 1) 5 8) [] 11 (by rfl) (by rfl) 1 fun _ => rfl)
  apply Run.cons (Step.of_exec (.start (some 2) 6 9) [] 12 (by rfl) (by rfl) 2 fun _ => rfl)
  apply Run.cons (Step.of_exec (.restart (some 1) 7) [] 13 (by exact ⟨(5, 8), rfl, by decide⟩) (by rfl) 2 fun _ => rfl)
  apply Run.cons (Step.of_exec (.tick 6) [(some 2, 9)] 13 trivial (by rfl) 3 fun _ => rfl)
  apply Run.cons (Step.of_exec (.stop (some 1)) [] 13 (by rfl) (by rfl) 0 fun _ => rfl)
  exact Run.nil _

theorem list_serves_putOff : ∃ c, Run Step init putOff c ∧ Run Alarms.Step (fun _ => none) putOff c.alarms ∧
    ∀ r p, r.Allowed c.alarms → c.store p = none → ∃ calls c', Step c (r, calls) c' := by
  obtain ⟨c, hrun⟩ := putOff_run
  exact ⟨c, hrun, list_serves hrun⟩

end Client

end SortTimerList

end Timers
