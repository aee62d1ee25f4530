-- SUMMARY: The edge-triggered receive loops of et() and of the reflection server, and exactly when they let go of the socket they close.
import Mathlib.Data.List.TakeWhile
import Mathlib.Order.Nat

/-!
# Receiving until there is nothing left

Under edge triggering a readable socket is reported once, so a loop receives until `recv`
fails. The two loops are the same but for what they do with data and how they say that there
is none left.
-/

namespace EdgeTriggered

/-- What a call of `recv` comes to: data, `EAGAIN` or `EWOULDBLOCK`, another error, or `0`. -/
inductive Recv where
  | data (d : List UInt8)
  | again
  | error
  | eof
deriving Repr, DecidableEq

/-- What a loop does: calls on the descriptor, and lines of output. -/
inductive Op where
  | recv
  | send (d : List UInt8)
  | close
  | printReadLater
  | printGot (ret : Nat) (content : List UInt8)
deriving Repr, DecidableEq

/-- A call on the descriptor. -/
def Op.OnSocket : Op → Prop
  | .recv | .send _ | .close => True
  | .printReadLater | .printGot _ _ => False

/-- The array `buf` after `memset` and `recv`. -/
def filled (size : Nat) (d : List UInt8) : List UInt8 :=
  d ++ List.replicate (size - d.length) 0

-- ---------------------------------------------------------------------------
-- The loops
-- ---------------------------------------------------------------------------

/-- One iteration, and whether the loop goes on. -/
def iteration (again : List Op) (data : List UInt8 → Op) : Recv → List Op × Bool
  | .again => (.recv :: again, false)
  | .error => ([.recv, .close], false)
  | .eof => ([.recv, .close], true) -- no `break`
  | .data d => ([.recv, data d], true)

/-- The iterations over these results, and whether the loop has not been left. -/
def recvLoop (body : Recv → List Op × Bool) : List Recv → List Op × Bool
  | [] => ([], true)
  | r :: rs =>
    match body r with
    | (ops, true) =>
      let (rest, goesOn) := recvLoop body rs
      (ops ++ rest, goesOn)
    | (ops, false) => (ops, false)

/-- `BUFFER_SIZE` of `et`. -/
def bufferSize : Nat := 10

/-- The loop body of `et`. `%s` prints `buf` up to its first NUL. -/
def et : Recv → List Op × Bool :=
  iteration [.printReadLater] fun d => .printGot d.length ((filled bufferSize d).takeWhile (· ≠ 0))

/-- `TCP_BUFFER_SIZE` and `UDP_BUFFER_SIZE`. -/
def tcpBufferSize : Nat := 512
def udpBufferSize : Nat := 1024

/-- The loop body of the TCP branch of the reflection server. -/
def reflect : Recv → List Op × Bool :=
  iteration [] fun d => .send ((filled tcpBufferSize d).take d.length)

-- ---------------------------------------------------------------------------
-- Letting go of a closed socket
-- ---------------------------------------------------------------------------

/-- The descriptor is closed at most once, and not used after that. -/
structure Clean (ops : List Op) : Prop where
  once : ops.count .close ≤ 1
  after : ∀ op ∈ (ops.dropWhile (· ≠ .close)).tail, ¬ op.OnSocket

/-- Over these results the loop stays clean as long as it runs, and is left. -/
def LetsGo (body : Recv → List Op × Bool) (results : Nat → Recv) : Prop :=
  (∀ n, Clean (recvLoop body ((List.range n).map results)).1) ∧
    ∃ n, (recvLoop body ((List.range n).map results)).2 = false

/-- Some result is not data, and the first such is not the end of the stream. -/
def BlocksOrFails (results : Nat → Recv) : Prop :=
  ∃ k, (∀ i < k, ∃ d, results i = .data d) ∧ (results k = .again ∨ results k = .error)

variable {body : Recv → List Op × Bool} {rs rs' : List Recv} {results : Nat → Recv} {again : List Op}
  {data : List UInt8 → Op} {ops rest : List Op} {r : Recv} {k n : Nat}

/-- Up to a `close`, and from there on. -/
theorem dropWhile_close (h : .close ∉ ops) :
    (ops ++ rest).dropWhile (· ≠ .close) = rest.dropWhile (· ≠ .close) :=
  List.dropWhile_append_of_pos fun op hop => by
    have hne : op ≠ .close := fun heq => h (heq ▸ hop)
    simpa using hne

theorem Clean.of_notMem (h : .close ∉ ops) : Clean ops where
  once := by rw [List.count_eq_zero_of_not_mem h]; exact Nat.zero_le 1
  after := by
    have hend := @dropWhile_close ops [] h
    rw [List.append_nil] at hend
    rw [hend]
    exact fun op hop => nomatch hop

theorem Clean.of_last (h : .close ∉ ops) : Clean (ops ++ [.close]) where
  once := by rw [List.count_append, List.count_eq_zero_of_not_mem h]; decide
  after := by
    rw [dropWhile_close h]
    simp

theorem not_clean (h : .close ∉ ops) (hop : .recv ∈ rest) : ¬ Clean (ops ++ .close :: rest) := by
  intro hclean
  refine hclean.after .recv ?_ trivial
  rw [dropWhile_close h]
  simpa using hop

-- ---------------------------------------------------------------------------
-- Runs of the loop
-- ---------------------------------------------------------------------------

theorem recvLoop_append :
    recvLoop body (rs ++ rs') =
      if (recvLoop body rs).2 then ((recvLoop body rs).1 ++ (recvLoop body rs').1, (recvLoop body rs').2)
      else recvLoop body rs := by
  induction rs with
  | nil => rfl
  | cons r rs ih =>
    rw [List.cons_append, recvLoop, recvLoop, ih]
    rcases body r with ⟨ops, goesOn⟩
    cases goesOn with
    | false => rfl
    | true =>
      dsimp only
      split
      · rw [List.append_assoc]
      · rfl

/-- Over data the loop only goes on. -/
theorem recvLoop_data (h : ∀ r ∈ rs, ∃ d, r = .data d) :
    recvLoop (iteration again data) rs = (rs.flatMap fun r => (iteration again data r).1, true) := by
  induction rs with
  | nil => rfl
  | cons r rs ih =>
    obtain ⟨⟨d, rfl⟩, hrs⟩ := List.forall_mem_cons.mp h
    rw [recvLoop, ih hrs]
    rfl

/-- Receiving data closes nothing. -/
theorem close_notMem_recvLoop (hdata : ∀ d, data d ≠ .close) (h : ∀ r ∈ rs, ∃ d, r = .data d) :
    .close ∉ (recvLoop (iteration again data) rs).1 := by
  rw [recvLoop_data h, List.mem_flatMap]
  rintro ⟨r, hr, hclose⟩
  obtain ⟨d, rfl⟩ := h r hr
  have heq : .close = data d := by simpa [iteration] using hclose
  exact hdata d heq.symm

/-- An iteration that leaves the loop is the last one. -/
theorem recvLoop_leave (h : ∀ r ∈ rs, ∃ d, r = .data d) (hr : iteration again data r = (ops, false)) :
    recvLoop (iteration again data) (rs ++ r :: rs') = ((recvLoop (iteration again data) rs).1 ++ ops, false) := by
  rw [recvLoop_append, if_pos (congrArg Prod.snd (recvLoop_data h)), recvLoop, hr]

/-- After the end of the stream the loop receives from what it has closed. -/
theorem recvLoop_eof (hdata : ∀ d, data d ≠ .close) (h : ∀ r ∈ rs, ∃ d, r = .data d) (r : Recv) :
    ¬ Clean (recvLoop (iteration again data) (rs ++ [.eof, r])).1 := by
  have hrecv : .recv ∈ (recvLoop (iteration again data) [r]).1 := by
    cases r <;> exact List.mem_cons_self
  have hops : (recvLoop (iteration again data) [.eof, r]).1 =
      .recv :: .close :: (recvLoop (iteration again data) [r]).1 := rfl
  have hp : .close ∉ (recvLoop (iteration again data) rs).1 ++ [.recv] := by
    simpa using close_notMem_recvLoop hdata h
  rw [recvLoop_append, if_pos (congrArg Prod.snd (recvLoop_data h)), hops, ← List.singleton_append,
    ← List.append_assoc]
  exact not_clean hp hrecv

/-- The first results, and what is behind them. -/
theorem range_split (results : Nat → Recv) (k m : Nat) :
    (List.range (k + m)).map results = (List.range k).map results ++ (List.range' k m).map results := by
  rw [← List.map_append, List.range_eq_range', List.range_eq_range', ← List.range'_append_1, Nat.zero_add]

theorem datas_below {results : Nat → Recv} {k m : Nat} (h : ∀ i < k, ∃ d, results i = .data d) (hm : m ≤ k) :
    ∀ r ∈ (List.range m).map results, ∃ d, r = .data d := by
  intro r hmem
  obtain ⟨i, hi, rfl⟩ := List.mem_map.mp hmem
  exact h i (Nat.lt_of_lt_of_le (List.mem_range.mp hi) hm)

/-- A loop that is left has met a result that is not data; at the end of the stream it would
    have received once more. -/
theorem letsGo_blocksOrFails (hdata : ∀ d, data d ≠ .close) {results : Nat → Recv}
    (h : LetsGo (iteration again data) results) : BlocksOrFails results := by
  obtain ⟨hclean, n, hleft⟩ := h
  have hother : ∃ i, ¬ ∃ d, results i = .data d := by
    by_contra hall
    have hdatas : ∀ i < n, ∃ d, results i = .data d := fun i _ => not_not.mp (not_exists.mp hall i)
    rw [recvLoop_data (datas_below hdatas (Nat.le_refl n))] at hleft
    cases hleft
  classical
  -- the first result that is not data
  let k := Nat.find hother
  have hbefore : ∀ i < k, ∃ d, results i = .data d := fun i hi => not_not.mp (Nat.find_min hother hi)
  have hk : ¬ ∃ d, results k = .data d := Nat.find_spec hother
  refine ⟨k, hbefore, ?_⟩
  cases hr : results k with
  | data d => exact absurd ⟨d, hr⟩ hk
  | again => exact .inl rfl
  | error => exact .inr rfl
  | eof =>
    have hbad := hclean (k + 2)
    have htwo : (List.range' k 2).map results = [.eof, results (k + 1)] := by
      simp [List.range', hr]
    rw [range_split, htwo] at hbad
    exact absurd hbad (recvLoop_eof hdata (datas_below hbefore (Nat.le_refl k)) _)

/-- A loop whose first result that is not data blocks or fails closes its socket last, if at
    all. -/
theorem blocksOrFails_letsGo (hdata : ∀ d, data d ≠ .close) (hagain : .close ∉ again) {results : Nat → Recv}
    (h : BlocksOrFails results) : LetsGo (iteration again data) results := by
  obtain ⟨k, hbefore, hk⟩ := h
  have hdatas := datas_below hbefore (Nat.le_refl k)
  have hclean : .close ∉ (recvLoop (iteration again data) ((List.range k).map results)).1 :=
    close_notMem_recvLoop hdata hdatas
  -- what the iteration that leaves the loop does
  have hleave : ∃ ops, iteration again data (results k) = (ops, false) ∧
      Clean ((recvLoop (iteration again data) ((List.range k).map results)).1 ++ ops) := by
    rcases hk with hk | hk
    · rw [hk]
      refine ⟨_, rfl, .of_notMem ?_⟩
      simpa using ⟨hclean, hagain⟩
    · rw [hk]
      refine ⟨_, rfl, ?_⟩
      rw [← List.singleton_append, ← List.append_assoc]
      refine .of_last ?_
      simpa using hclean
  obtain ⟨ops, hops, hlast⟩ := hleave
  have hrun : ∀ m, recvLoop (iteration again data) ((List.range (k + (m + 1))).map results) =
      ((recvLoop (iteration again data) ((List.range k).map results)).1 ++ ops, false) := by
    intro m
    rw [range_split, List.range'_succ, List.map_cons]
    exact recvLoop_leave hdatas hops
  refine ⟨fun n => ?_, k + 1, congrArg Prod.snd (hrun 0)⟩
  by_cases hn : n ≤ k
  · exact .of_notMem (close_notMem_recvLoop hdata (datas_below hbefore hn))
  · obtain ⟨m, rfl⟩ : ∃ m, n = k + (m + 1) := ⟨n - k - 1, by omega⟩
    rw [hrun m]
    exact hlast

/-- Both loops let go of their sockets exactly if `recv` blocks or fails before the stream ends. -/
theorem letsGo_iff (results : Nat → Recv) :
    (LetsGo et results ↔ BlocksOrFails results) ∧ (LetsGo reflect results ↔ BlocksOrFails results) := by
  constructor
  · constructor
    · exact letsGo_blocksOrFails (by rintro d ⟨⟩)
    · exact blocksOrFails_letsGo (by rintro d ⟨⟩) (by decide)
  · constructor
    · exact letsGo_blocksOrFails (by rintro d ⟨⟩)
    · exact blocksOrFails_letsGo (by rintro d ⟨⟩) List.not_mem_nil

/-- The peer closes an idle connection. -/
def hangUp : Nat → Recv
  | 0 => .eof
  | _ => .error

/-- The socket is closed, received from, and closed again. -/
theorem hangUp_received_again :
    (recvLoop et ((List.range 2).map hangUp)).1 = [.recv, .close, .recv, .close] ∧ ¬ LetsGo et hangUp ∧
      (recvLoop reflect ((List.range 2).map hangUp)).1 = [.recv, .close, .recv, .close] ∧ ¬ LetsGo reflect hangUp := by
  have hnot : ¬ BlocksOrFails hangUp := by
    rintro ⟨k, hbefore, hk⟩
    cases k with
    | zero => simp [hangUp] at hk
    | succ k =>
      obtain ⟨d, ⟨⟩⟩ := hbefore 0 (Nat.succ_pos k)
  exact ⟨rfl, mt (letsGo_iff hangUp).1.mp hnot, rfl, mt (letsGo_iff hangUp).2.mp hnot⟩

end EdgeTriggered
