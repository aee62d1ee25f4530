-- SUMMARY: What read() makes of every sequence of recv results: it takes all that arrives, except where that fills the read buffer exactly.
import LinuxLearning.HttpConn.State

/-!
# Draining the socket

The results of `recv` in one call of `read` are pieces of data and then a result without
data. A full buffer is met by asking for 0 bytes, and the 0 that comes back looks like the
end of the stream.
-/

namespace Http

open Memory CString

namespace HttpConn

variable {c : HttpConn} {ps : List (List UInt8)} {rs : List Recv} {stop : Recv}

/-- Pieces that leave room in the buffer are all appended. -/
theorem recvLoop_pieces (hps : ∀ p ∈ ps, p ≠ []) (hlt : c.readIdx + ps.flatten.length < readBufferSize) :
    c.recvLoop (ps.map .data ++ rs) = (c.append ps.flatten).recvLoop rs := by
  induction ps generalizing c with
  | nil => rfl
  | cons p ps ih =>
    rw [List.forall_mem_cons] at hps
    simp only [List.flatten_cons, List.length_append] at hlt
    have happ : (c.append p).append ps.flatten = c.append (p ++ ps.flatten) := by
      simp only [append, blit_append, List.length_append, Nat.add_assoc]
    have hrest := ih (c := c.append p) hps.2 (by simp only [append]; omega)
    rw [happ] at hrest
    rw [List.flatten_cons, ← hrest, List.map_cons, List.cons_append, recvLoop, if_neg (by omega)]
    · simp only [List.take_of_length_le (show p.length ≤ readBufferSize - c.readIdx by omega)]
    · exact fun h => hps.1 h

/-- Pieces that fill the buffer end the loop as a closed peer does. -/
theorem recvLoop_full (hps : ∀ p ∈ ps, p ≠ []) (hle : c.readIdx ≤ readBufferSize)
    (hfull : readBufferSize ≤ c.readIdx + ps.flatten.length) : (c.recvLoop (ps.map .data ++ rs)).2 = false := by
  induction ps generalizing c with
  | nil =>
    unfold recvLoop
    rw [if_pos (by simpa using hfull)]
  | cons p ps ih =>
    rw [List.forall_mem_cons] at hps
    simp only [List.flatten_cons, List.length_append] at hfull
    rw [List.map_cons, List.cons_append, recvLoop]
    · split
      · rfl
      · refine ih hps.2 ?_ ?_
        · simp only [append, List.length_take]
          omega
        · simp only [append, List.length_take]
          omega
    · exact fun h => hps.1 h

/-- The bytes `bs` were appended where the data ended, and nothing before them was changed. -/
structure Appended (c : HttpConn) (bs : List UInt8) (d : HttpConn) : Prop where
  readIdx : d.readIdx = c.readIdx + bs.length
  bytes : bytes d.readBuf c.readIdx bs.length = bs
  earlier : ∀ i, i < c.readIdx → d.readBuf i = c.readBuf i

theorem append_appended (c : HttpConn) (bs : List UInt8) : Appended c bs (c.append bs) :=
  ⟨rfl, bytes_blit .., fun _ hi => blit_of_lt _ _ hi⟩

/-- A call that gets the pieces and then `EAGAIN` takes them all if they fit, and a call fails
    only for a closed peer, an error, or more bytes than fit. -/
structure Drains (c : HttpConn) (ps : List (List UInt8)) (stop : Recv) (r : HttpConn × Bool) : Prop where
  takes : stop = .eagain → c.readIdx + ps.flatten.length ≤ readBufferSize →
    r.2 = true ∧ Appended c ps.flatten r.1
  fails : r.2 = false → stop = .data [] ∨ stop = .error ∨ readBufferSize < c.readIdx + ps.flatten.length

/-- `read()` does so except where the pieces fill the buffer exactly. -/
theorem read_drains_iff (hlt : c.readIdx < readBufferSize) (hps : ∀ p ∈ ps, p ≠ [])
    (hstop : ∀ bs, stop = .data bs → bs = []) (rest : List Recv) :
    Drains c ps stop (c.read (ps.map .data ++ stop :: rest)) ↔
      ¬ (stop = .eagain ∧ c.readIdx + ps.flatten.length = readBufferSize) := by
  rw [read, if_neg (Nat.not_le_of_lt hlt)]
  rcases Nat.lt_or_ge (c.readIdx + ps.flatten.length) readBufferSize with hroom | hfull
  · have hroom' : ¬ readBufferSize ≤ (c.append ps.flatten).readIdx := Nat.not_le_of_lt hroom
    rw [recvLoop_pieces hps hroom]
    unfold recvLoop
    rw [if_neg hroom']
    refine iff_of_true ?_ fun h => absurd h.2 hroom.ne
    cases stop with
    | eagain => exact ⟨fun _ _ => ⟨rfl, append_appended c _⟩, nofun⟩
    | error => exact ⟨nofun, fun _ => .inr (.inl rfl)⟩
    | data bs =>
      obtain rfl := hstop bs rfl
      exact ⟨nofun, fun _ => .inl rfl⟩
  · have hfalse : (c.recvLoop (ps.map .data ++ stop :: rest)).2 = false := recvLoop_full hps hlt.le hfull
    constructor
    · rintro hdrains ⟨rfl, hexact⟩
      obtain ⟨htrue, -⟩ := hdrains.takes rfl hexact.le
      rw [hfalse] at htrue
      cases htrue
    · intro hne
      refine ⟨fun hagain hle => absurd ⟨hagain, le_antisymm hle hfull⟩ hne, fun _ => ?_⟩
      rcases hfull.eq_or_lt with hexact | hmore
      · cases stop with
        | eagain => exact absurd ⟨rfl, hexact.symm⟩ hne
        | error => exact .inr (.inl rfl)
        | data bs =>
          obtain rfl := hstop bs rfl
          exact .inl rfl
      · exact .inr (.inr hmore)

theorem read_drains_two : Drains blank [[71, 69], [84]] .eagain (blank.read [.data [71, 69], .data [84], .eagain]) ↔
    ¬ (Recv.eagain = .eagain ∧ blank.readIdx + [[71, 69], [84]].flatten.length = readBufferSize) :=
  have hps : ∀ p ∈ [[71, 69], [84]], p ≠ ([] : List UInt8) := by decide
  read_drains_iff (by decide) hps (by intro bs h; cases h) []

/-- One byte, into a buffer with room for one. -/
theorem exact_fit_fails :
    ¬ Drains { blank with readIdx := 2047 } [[71]] .eagain
      (({ blank with readIdx := 2047 } : HttpConn).read [.data [71], .eagain]) := by
  intro h
  obtain ⟨htrue, -⟩ := h.takes rfl (by decide)
  exact absurd htrue (by decide)

end HttpConn

end Http
