-- SUMMARY: A user with one timer at a time as a client of a timer container: what the container holds, read as the alarms of the users.
import LinuxLearning.Common.Alarms
import LinuxLearning.Common.Memory

/-!
# The timers of users

A client knows a timer by what its callback gets, the `user_data`, and keeps a pointer to the
timer of each user. Whatever else a container does with its timers, those that still have a
callback are the alarms of the users they are for.
-/

namespace Timers

open Memory Alarms

/-- A `user_data`. -/
abbrev User := Option Ptr

/-- The timers of the users after calls: a user that is called forgets its timer. -/
def forget (calls : List (User × Nat)) (timer : User → Option Ptr) : User → Option Ptr := fun u =>
  if u ∈ calls.map Prod.fst then none else timer u

/-- How the members of a timer are read. -/
structure Fields (τ : Type) where
  expire : τ → Int
  cbFunc : τ → Option Nat
  userData : τ → User

namespace Fields

variable {τ : Type} (F : Fields τ)

/-- Whom a timer calls, when it expires, and with which function, unless its callback was taken
    away. -/
def alarm (t : τ) : Option (User × Int × Nat) :=
  (F.cbFunc t).map fun f => (F.userData t, F.expire t, f)

/-- The alarm of a timer, with its address, by its user. -/
def entry (x : Ptr × τ) : Option (User × Ptr × Int × Nat) :=
  (F.alarm x.2).map fun a => (a.1, x.1, a.2)

/-- The calls that the timers make. -/
def calls (due : List (Ptr × τ)) : List (User × Nat) :=
  due.filterMap fun x => (F.alarm x.2).map fun a => (a.1, a.2.2)

/-- The alarms of the users, where `timer` leads to their timers. -/
def alarms (timer : User → Option Ptr) (look : Ptr → Option τ) : State User Nat := fun u =>
  (timer u).bind fun p => (look p).bind fun t => (F.alarm t).map Prod.snd

variable {F} {timer : User → Option Ptr} {look look' : Ptr → Option τ} {ts ts' : Multiset (Ptr × τ)}
  {table : User → Option (Ptr × Int × Nat)} {p : Ptr} {t : τ} {u : User} {e cur : Int} {f : Nat}

theorem alarm_eq {a : User × Int × Nat} (h : F.alarm t = some a) : a.2.1 = F.expire t := by
  obtain ⟨f, -, rfl⟩ := Option.map_eq_some_iff.mp h
  rfl

theorem entry_eq {a : User × Int × Nat} (h : F.alarm t = some a) :
    F.entry (p, t) = some (a.1, p, a.2) := by
  rw [entry, h]
  rfl

/-- The timers `ts` are live, and `timer` leads to those of them that have a callback. -/
structure Kept (F : Fields τ) (timer : User → Option Ptr) (look : Ptr → Option τ) (ts : Multiset (Ptr × τ))
    (table : User → Option (Ptr × Int × Nat)) : Prop where
  entries : Tabulates (ts.filterMap F.entry) table
  timers : timer = fun u => (table u).map Prod.fst
  live : ∀ x ∈ ts, look x.1 = some x.2

theorem Kept.empty : Kept F (fun _ => none) look 0 fun _ => none :=
  ⟨.empty, rfl, by simp⟩

theorem Kept.alarms (h : Kept F timer look ts table) :
    F.alarms timer look = fun u => (table u).map Prod.snd := by
  funext u
  simp only [Fields.alarms, h.timers]
  cases hu : table u with
  | none => rfl
  | some b =>
    obtain ⟨x, hx, hentry⟩ := (Multiset.mem_filterMap ..).mp ((h.entries.mem u b).mp hu)
    obtain ⟨a, ha, hab⟩ := Option.map_eq_some_iff.mp hentry
    cases hab
    simp [h.live x hx, ha]

theorem Kept.timer_none (h : Kept F timer look ts table) (hu : F.alarms timer look u = none) : timer u = none := by
  rw [h.alarms] at hu
  rw [h.timers]
  exact Option.map_eq_none_iff.mpr (Option.map_eq_none_iff.mp hu)

/-- A user that has an alarm has a timer for it. -/
theorem Kept.split (h : Kept F timer look ts table) (hu : F.alarms timer look u = some (e, f)) :
    ∃ p t ts', timer u = some p ∧ ts = (p, t) ::ₘ ts' ∧ F.alarm t = some (u, e, f) := by
  rw [h.alarms] at hu
  obtain ⟨b, hb, hbe⟩ := Option.map_eq_some_iff.mp hu
  obtain ⟨x, hx, hentry⟩ := (Multiset.mem_filterMap ..).mp ((h.entries.mem u b).mp hb)
  obtain ⟨a, ha, hab⟩ := Option.map_eq_some_iff.mp hentry
  cases hab
  have halarm : a = (a.1, e, f) := Prod.ext rfl hbe
  obtain ⟨ts', hts⟩ := Multiset.exists_cons_of_mem hx
  refine ⟨x.1, x.2, ts', ?_, hts, ha.trans (congrArg some halarm)⟩
  rw [h.timers]
  exact Option.map_eq_some_iff.mpr ⟨_, hb, rfl⟩

-- ---------------------------------------------------------------------------
-- Requests
-- ---------------------------------------------------------------------------

/-- What a request does to the table, it does to the alarms. -/
theorem Kept.step (h : Kept F timer look ts table) {timer' : User → Option Ptr}
    {table' : User → Option (Ptr × Int × Nat)} (h' : Kept F timer' look' ts' table')
    {r : Request User Nat} {fired : List (User × Nat)}
    (hallowed : r.Allowed fun u => (table u).map Prod.snd)
    (hfires : r.Fires (fun u => (table u).map Prod.snd) fired)
    (hnext : (fun u => (table' u).map Prod.snd) = r.next fun u => (table u).map Prod.snd) :
    Step (F.alarms timer look) (r, fired) (F.alarms timer' look') := by
  rw [h.alarms, h'.alarms]
  exact ⟨hallowed, hfires, hnext⟩

theorem map_update {α β γ : Type} [DecidableEq α] (g : β → γ) (table : α → Option β) (u : α) (b : Option β) :
    (fun v => (Function.update table u b v).map g) = Function.update (fun v => (table v).map g) u (b.map g) := by
  funext v
  exact Function.apply_update (fun _ (x : Option β) => x.map g) table u b v

/-- A user that has no timer gets one. -/
theorem Kept.start (h : Kept F timer look ts table) (hu : timer u = none) (ht : F.alarm t = some (u, e, f))
    (hlook : ∀ x ∈ (p, t) ::ₘ ts, look' x.1 = some x.2) :
    Kept F (Function.update timer u (some p)) look' ((p, t) ::ₘ ts)
        (Function.update table u (some (p, e, f))) ∧
      Step (F.alarms timer look) (.start u e f, []) (F.alarms (Function.update timer u (some p)) look') := by
  have hnone : table u = none := by
    rw [h.timers] at hu
    exact Option.map_eq_none_iff.mp hu
  have h' : Kept F (Function.update timer u (some p)) look' ((p, t) ::ₘ ts)
      (Function.update table u (some (p, e, f))) := by
    refine ⟨?_, ?_, hlook⟩
    · rw [Multiset.filterMap_cons_some _ _ _ (entry_eq ht)]
      exact h.entries.cons hnone _
    · rw [map_update, h.timers]
      rfl
  refine ⟨h', h.step h' ?_ rfl (map_update ..)⟩
  show (table u).map Prod.snd = none
  rw [hnone]
  rfl

/-- The timer of a user is deleted, or its callback is taken away. -/
theorem Kept.drop (h : Kept F timer look ((p, t) ::ₘ ts) table) (ht : F.alarm t = some (u, e, f))
    (hts : ts'.filterMap F.entry = ts.filterMap F.entry) (hlook : ∀ x ∈ ts', look' x.1 = some x.2) :
    Kept F (Function.update timer u none) look' ts' (Function.update table u none) := by
  refine ⟨?_, ?_, hlook⟩
  · rw [hts]
    have hentries := h.entries
    rw [Multiset.filterMap_cons_some _ _ _ (entry_eq ht)] at hentries
    exact hentries.erase
  · rw [map_update, h.timers]
    rfl

theorem Kept.stop (h : Kept F timer look ((p, t) ::ₘ ts) table) (ht : F.alarm t = some (u, e, f))
    (hts : ts'.filterMap F.entry = ts.filterMap F.entry) (hlook : ∀ x ∈ ts', look' x.1 = some x.2) :
    Kept F (Function.update timer u none) look' ts' (Function.update table u none) ∧
      Step (F.alarms timer look) (.stop u, []) (F.alarms (Function.update timer u none) look') := by
  refine ⟨h.drop ht hts hlook, h.step (h.drop ht hts hlook) ?_ rfl (map_update ..)⟩
  have hmem := (h.entries.mem u (p, e, f)).mpr
    ((Multiset.mem_filterMap ..).mpr ⟨(p, t), Multiset.mem_cons_self .., entry_eq ht⟩)
  show ((table u).map Prod.snd).isSome
  rw [hmem]
  rfl

/-- A user gets another timer for the one that it has, with a later time. -/
theorem Kept.restart {p' : Ptr} {t' : τ} {e' : Int} (h : Kept F timer look ((p, t) ::ₘ ts) table)
    (ht : F.alarm t = some (u, e, f)) (hle : e ≤ e') (ht' : F.alarm t' = some (u, e', f))
    (hts : ts'.filterMap F.entry = ts.filterMap F.entry)
    (hlook : ∀ x ∈ (p', t') ::ₘ ts', look' x.1 = some x.2) :
    Kept F (Function.update timer u (some p')) look' ((p', t') ::ₘ ts')
        (Function.update table u (some (p', e', f))) ∧
      Step (F.alarms timer look) (.restart u e', []) (F.alarms (Function.update timer u (some p')) look') := by
  have hdrop := h.drop ht hts fun x hx => hlook x (Multiset.mem_cons_of_mem hx)
  obtain ⟨h', -⟩ := hdrop.start (Function.update_self ..) ht' hlook
  rw [Function.update_idem, Function.update_idem] at h'
  have hmem : table u = some (p, e, f) := (h.entries.mem u (p, e, f)).mpr
    ((Multiset.mem_filterMap ..).mpr ⟨(p, t), Multiset.mem_cons_self .., entry_eq ht⟩)
  have halarm : (table u).map Prod.snd = some (e, f) := by
    rw [hmem]
    rfl
  refine ⟨h', h.step h' ⟨(e, f), halarm, hle⟩ rfl ?_⟩
  rw [map_update, Request.next, halarm]
  rfl

theorem entry_expire {x : Ptr × τ} {b : User × Ptr × Int × Nat} (h : F.entry x = some b) :
    b.2.2.1 = F.expire x.2 := by
  obtain ⟨a, ha, rfl⟩ := Option.map_eq_some_iff.mp h
  exact alarm_eq ha

theorem filterMap_entry (q : Int → Prop) [DecidablePred q] :
    (ts.filter fun x => q (F.expire x.2)).filterMap F.entry =
      (ts.filterMap F.entry).filter fun x => q x.2.2.1 := by
  rw [Multiset.filterMap_filter, Multiset.filter_filterMap]
  congr 1
  funext x
  cases hx : F.entry x with
  | none => exact ite_self none
  | some b => simp [entry_expire hx, Option.filter]

theorem calls_eq (due : List (Ptr × τ)) :
    F.calls due = (due.filterMap F.entry).map fun x => (x.1, x.2.2.2) := by
  rw [List.map_filterMap]
  refine List.filterMap_congr fun x _ => ?_
  rw [entry, Option.map_map]
  rfl

/-- The timers that are due are called, the earlier ones first. -/
theorem Kept.goesOff (h : Kept F timer look ts table) {due : List (Ptr × τ)}
    (hdue : Multiset.ofList due = ts.filter fun x => F.expire x.2 ≤ cur)
    (hord : due.Pairwise fun x y => F.expire x.2 ≤ F.expire y.2) :
    GoesOff (fun u => (table u).map Prod.snd) cur (F.calls due) := by
  rw [calls_eq]
  refine h.entries.goesOff Prod.snd ?_ ?_
  · rw [← Multiset.filterMap_coe, hdue]
    exact filterMap_entry (· ≤ cur)
  · rw [List.pairwise_filterMap]
    refine hord.imp fun hle b hb b' hb' => ?_
    rwa [entry_expire hb, entry_expire hb']

/-- The timers that are due are called and deleted. -/
theorem Kept.tick (h : Kept F timer look ts table) {due : List (Ptr × τ)}
    (hdue : Multiset.ofList due = ts.filter fun x => F.expire x.2 ≤ cur)
    (hord : due.Pairwise fun x y => F.expire x.2 ≤ F.expire y.2)
    (hts : ts' = ts.filter fun x => cur < F.expire x.2) (hlook : ∀ x ∈ ts', look' x.1 = some x.2) :
    Kept F (forget (F.calls due) timer) look' ts'
        (fun u => (table u).filter fun b => cur < b.2.1) ∧
      Step (F.alarms timer look) (.tick cur, F.calls due)
        (F.alarms (forget (F.calls due) timer) look') := by
  have hoff := h.goesOff hdue hord
  have h' : Kept F (forget (F.calls due) timer) look' ts'
      (fun u => (table u).filter fun b => cur < b.2.1) := by
    refine ⟨?_, ?_, hlook⟩
    · rw [hts, filterMap_entry (cur < ·)]
      exact h.entries.filter (cur < ·.2.1)
    · funext u
      simp only [forget, hoff.mem_names, h.timers]
      cases table u with
      | none => simp
      | some b =>
        by_cases hb : b.2.1 ≤ cur
        · simp [hb, Option.filter]
        · simp [hb, Option.filter, not_le.mp hb]
  refine ⟨h', h.step h' trivial hoff ?_⟩
  funext u
  show _ = Option.filter _ ((table u).map Prod.snd)
  cases table u with
  | none => rfl
  | some b => simp [Option.filter, apply_ite]

end Fields

end Timers
