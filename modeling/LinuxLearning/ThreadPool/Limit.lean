-- SUMMARY: The limit on the work queue, and the calls of append that break it.
import LinuxLearning.ThreadPool.Pool

/-!
# The limit on the queue

`append` turns a request down where the queue is longer than `m_max_requests`, and takes one
where it is just as long.
-/

namespace ThreadPool

open Transition

namespace Pool

variable {ι T : Type} [DecidableEq ι] {s t : Pool ι T} {e : Event ι T} {es : List (Event ι T)}
  {created : Nat → Bool} {threadNumber maxRequests : Int}

/-- The queue is not longer than `m_max_requests`. -/
def WithinLimit (s : Pool ι T) : Prop :=
  s.workqueue.length ≤ s.maxRequests

/-- A call of `append` takes the lock of a queue that holds `m_max_requests` requests. -/
def AppendsToFull (s : Pool ι T) : Event ι T → Prop
  | .append _ _ _ => s.workqueue.length = s.maxRequests
  | _ => False

/-- What `append` is to do about the limit: return `false`, and leave the pool as it is,
    exactly where the queue is full. -/
def Refuses (s : Pool ι T) (e : Event ι T) (t : Pool ι T) : Prop :=
  ∀ c request ok, e = .append c request ok → ((ok = false ∧ t = s) ↔ s.workqueue.length = s.maxRequests)

theorem Step.withinLimit (hs : s.WithinLimit) (h : Step s e t) (hroom : ¬ s.AppendsToFull e) : t.WithinLimit := by
  cases h with
  | append request _ =>
    rw [append_push (Nat.not_lt.mpr hs)]
    have hlt : s.workqueue.length < s.maxRequests := Nat.lt_of_le_of_ne hs hroom
    change (s.workqueue ++ [request]).length ≤ s.maxRequests
    rw [List.length_append, List.length_singleton]
    omega
  | post _ => exact hs
  | wait _ _ _ _ => exact hs
  | @take w _ _ =>
    unfold WithinLimit at hs ⊢
    cases hq : s.workqueue with
    | nil =>
      rw [take_nil hq]
      exact hs
    | cons request queue =>
      rw [take_cons hq]
      rw [hq, List.length_cons] at hs
      change queue.length ≤ s.maxRequests
      omega
  | process _ _ => exact hs

/-- Within the limit `append` takes every request. -/
theorem Step.refuses_iff (hs : s.WithinLimit) (h : Step s e t) : s.Refuses e t ↔ ¬ s.AppendsToFull e := by
  constructor
  · intro hrefuses hfull
    cases h with
    | append request _ =>
      obtain ⟨hok, -⟩ := (hrefuses _ _ _ rfl).mpr hfull
      rw [append_push (Nat.not_lt.mpr hs)] at hok
      cases hok
    | _ => exact hfull
  · rintro hroom c request ok rfl
    cases h with
    | append _ _ =>
      rw [append_push (Nat.not_lt.mpr hs)]
      constructor
      · rintro ⟨⟨⟩, -⟩
      · exact fun hfull => absurd hfull hroom

omit [DecidableEq ι] in
theorem threadpool_withinLimit (h : threadpool created threadNumber maxRequests = some s) : s.WithinLimit := by
  rw [WithinLimit, (threadpool_eq_some h).1]
  exact Nat.zero_le _

/-- Over every run of a new pool the queue keeps to the limit, and `append` turns down exactly
    the requests that find it full, if and only if no request finds it full. -/
theorem limit_kept_iff {start : Pool ι T} (hnew : threadpool created threadNumber maxRequests = some start)
    (es : List (Event ι T)) (t : Pool ι T) :
    Run (fun s e t => Step s e t ∧ ¬ s.AppendsToFull e) start es t ↔
      Run (fun s e t => Step s e t ∧ t.WithinLimit ∧ s.Refuses e t) start es t := by
  refine Run.congr (I := WithinLimit) (fun s e t hs h hroom => h.withinLimit hs hroom)
    (fun s e t hs h => ⟨fun hroom => ?_, fun hkept => ?_⟩) (threadpool_withinLimit hnew)
  · exact ⟨h.withinLimit hs hroom, (h.refuses_iff hs).mpr hroom⟩
  · exact (h.refuses_iff hs).mp hkept.2

/-- A pool for one request takes one, and hands it out before the next one comes. -/
theorem limit_kept_iff_one :
    ∃ start t : Pool (Fin 2) Nat, threadpool (fun _ => true) 1 1 = some start ∧
      Run (fun s e t => Step s e t ∧ t.WithinLimit ∧ s.Refuses e t) start
        [.append 0 (some 7) true, .post 0, .wait 0, .take 0 (some (some 7)), .append 1 (some 8) true] t := by
  let start : Pool (Fin 2) Nat := ⟨1, 1, [], 0, false, fun _ => .ready, fun _ => .wait⟩
  have hnew : threadpool (fun _ => true) 1 1 = some start := rfl
  have hrun : Run (fun s e t => Step s e t ∧ ¬ s.AppendsToFull e) start
      [.append 0 (some 7) true, .post 0, .wait 0, .take 0 (some (some 7)), .append 1 (some 8) true] _ :=
    .cons ⟨.append (c := (0 : Fin 2)) (some 7) rfl, Nat.zero_ne_one⟩
      (.cons ⟨.post (c := (0 : Fin 2)) rfl, id⟩
        (.cons ⟨.wait (w := 0) (by decide) rfl rfl (by decide), id⟩
          (.cons ⟨.take (w := 0) (by decide) rfl, id⟩
            (.cons ⟨.append (c := (1 : Fin 2)) (some 8) rfl, Nat.zero_ne_one⟩ (.nil _)))))
  exact ⟨start, _, hnew, (limit_kept_iff hnew _ _).mp hrun⟩

/-- Two requests in a queue for one. -/
theorem second_request_taken :
    ∃ start t : Pool (Fin 2) Nat, threadpool (fun _ => true) 1 1 = some start ∧
      Run Step start [.append 0 (some 7) true, .append 1 (some 8) true] t ∧
      start.maxRequests = 1 ∧ t.workqueue.length = 2 := by
  let start : Pool (Fin 2) Nat := ⟨1, 1, [], 0, false, fun _ => .ready, fun _ => .wait⟩
  exact ⟨start, _, rfl, .cons (Step.append (s := start) (c := (0 : Fin 2)) (some 7) rfl)
    (.cons (.append (c := (1 : Fin 2)) (some 8) rfl) (.nil _)), rfl, rfl⟩

end Pool

end ThreadPool
