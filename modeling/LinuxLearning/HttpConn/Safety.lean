-- SUMMARY: Memory safety of the request parser: the invariant of a connection under deliveries, and why only parse_content can leave the read buffer.
import LinuxLearning.HttpConn.LineScan

/-!
# Safety of the parser

A connection is fed by deliveries, each a call of `read()` and, if that succeeds,
one of `process_read()`. `Inv` holds of a fresh connection and is kept by every
delivery; under it every call of the parser is free of faults but one. The store
of `parse_content` goes where the client's `m_content_length` says, and `BodyFits`
is what it needs of the state. What it needs of the bytes is in `DeclaredLength`.
-/

namespace Http

open Memory CString

namespace HttpConn

variable {fs : FileSystem} {c d : HttpConn}

-- ---------------------------------------------------------------------------
-- Runs
-- ---------------------------------------------------------------------------

/-- The states in which the body of the main loop is entered. -/
def bodies (fs : FileSystem) : Nat → HttpConn → LineStatus → List HttpConn
  | 0, _, _ => []
  | n + 1, c, status =>
    match c.loopCond status with
    | .ok (d, .lineOk) =>
      d :: match d.loopBody fs with
        | .ok (c, .again status) => bodies fs n c status
        | _ => []
    | _ => []

/-- Deliveries to a connection: each appends what `recv` answers and parses. A
    failed `read()` closes the connection. -/
def feed (fs : FileSystem) : HttpConn → List (List Recv) → Except Fault HttpConn
  | c, [] => .ok c
  | c, rs :: ds =>
    match c.read rs with
    | (c, false) => .ok c
    | (c, true) => do
      let (c, _) ← c.processRead fs
      feed fs c ds

/-- The states in which a body of the main loop is entered during a run. -/
def feedBodies (fs : FileSystem) : HttpConn → List (List Recv) → List HttpConn
  | _, [] => []
  | c, rs :: ds =>
    match c.read rs with
    | (_, false) => []
    | (c, true) =>
      bodies fs readFuel c .lineOk ++ match c.processRead fs with
        | .ok (c, _) => feedBodies fs c ds
        | .error _ => []

/-- The states of a run between two calls. -/
def feedStates (fs : FileSystem) : HttpConn → List (List Recv) → List HttpConn
  | c, [] => [c]
  | c, rs :: ds =>
    c :: match c.read rs with
      | (c, false) => [c]
      | (c, true) => c :: match c.processRead fs with
        | .ok (c, _) => feedStates fs c ds
        | .error _ => []

/-- The indices are in order and inside the buffer. -/
def Ordered (c : HttpConn) : Prop :=
  c.startLine ≤ c.checkedIdx ∧ c.checkedIdx ≤ c.readIdx ∧ c.readIdx ≤ readBufferSize

/-- What the store of `parse_content` needs of the body length: its end is an
    `int`, and a body that counts as complete neither starts before the buffer nor
    ends at the last byte of a full one. -/
def BodyFits (c : HttpConn) : Prop :=
  c.contentLength ≤ intMax - c.checkedIdx ∧
    (c.contentLength + c.checkedIdx ≤ c.readIdx →
      -(c.startLine : Int) ≤ c.contentLength ∧
      c.contentLength ≠ readBufferSize - (c.startLine : Int))

-- ---------------------------------------------------------------------------
-- The invariant
-- ---------------------------------------------------------------------------

/-- What holds of a connection between two calls. Past the request line `m_url`
    points to a terminated string. -/
structure Inv (c : HttpConn) : Prop extends Scanning c where
  url : c.checkState ≠ .requestLine →
    ∃ u e, c.url = some u ∧ u ≤ e ∧ e < c.readIdx ∧ c.readBuf e = 0
  realFile : c.realFile (filenameLen - 1) = 0
  length : intMin ≤ c.contentLength

theorem Inv.ordered (h : c.Inv) : c.Ordered :=
  ⟨h.start_le, h.checked_le, h.read_le⟩

theorem init_inv (c : HttpConn) : c.init.Inv where
  start_le := le_refl _
  checked_le := le_refl _
  read_le := Nat.zero_le _
  plain i h h' := absurd h' (Nat.not_lt_zero i)
  prev h := absurd h (Nat.lt_irrefl 0)
  url h := absurd rfl h
  realFile := by simp [init, filenameLen]
  length := by simp [init, intMin]

theorem Inv.append (h : c.Inv) (bs : List UInt8) (hle : c.readIdx + bs.length ≤ readBufferSize) :
    (c.append bs).Inv where
  start_le := h.start_le
  checked_le := le_trans h.checked_le (Nat.le_add_right _ _)
  read_le := hle
  plain i hs hi := by
    have := h.checked_le
    simp only [HttpConn.append] at hi ⊢
    rw [blit_of_lt _ _ (by omega)]
    exact h.plain i hs hi
  prev hs := by
    have := h.start_le
    have := h.checked_le
    simp only [HttpConn.append] at hs ⊢
    rw [blit_of_lt _ _ (by omega)]
    exact h.prev hs
  url hst := by
    obtain ⟨u, e, hu, hue, he, h0⟩ := h.url hst
    refine ⟨u, e, hu, hue, by simp only [HttpConn.append]; omega, ?_⟩
    simp only [HttpConn.append]
    rwa [blit_of_lt _ _ he]
  realFile := h.realFile
  length := h.length

/-- `read()` keeps the invariant, however many answers it takes. -/
theorem recvLoop_inv {rs : List Recv} (h : c.Inv) : (c.recvLoop rs).1.Inv := by
  induction rs generalizing c with
  | nil => unfold recvLoop; split <;> exact h
  | cons r rs ih =>
    unfold recvLoop
    split
    · exact h
    · rename_i hlt
      match r with
      | .eagain => exact h
      | .error => exact h
      | .data [] => exact h
      | .data (b :: bs) =>
        apply ih
        apply h.append
        rw [List.length_take]
        omega

theorem read_inv (h : c.Inv) (rs : List Recv) : (c.read rs).1.Inv := by
  unfold read
  split
  · exact h
  · exact recvLoop_inv h

-- ---------------------------------------------------------------------------
-- The condition of the main loop
-- ---------------------------------------------------------------------------

/-- Where the body of the main loop is entered: on a body, or on a complete line. -/
def AtBody (c : HttpConn) : Prop :=
  c.checkState = .content ∨
    ∃ l, LineAt c.readBuf c.startLine l ∧ c.checkedIdx = c.startLine + l.length + 2

theorem update_zero_of_zero {m : Mem} {i : Nat} (h : m i = 0) (j : Nat) :
    Function.update m j 0 i = 0 := by
  by_cases hij : i = j
  · subst hij; exact Function.update_self ..
  · rwa [Function.update_of_ne hij]

/-- Zeroing bytes and moving `m_checked_idx` over plain or zeroed bytes. -/
theorem Inv.zeroed (h : c.Inv) {m : Mem} {s e : Nat} (hz : ZeroedIn s e c.readBuf m) {k : Nat}
    (hs : c.startLine ≤ k) (hk : k ≤ c.readIdx) (hp : ∀ i, c.startLine ≤ i → i < k → isPlain (m i)) :
    ({ c with readBuf := m, checkedIdx := k }).Inv where
  start_le := hs
  checked_le := hk
  read_le := h.read_le
  plain := hp
  prev hpos := hz.ne_cr (h.prev hpos)
  url hst := by
    obtain ⟨u, e, hu, hue, he, h0⟩ := h.url hst
    exact ⟨u, e, hu, hue, he, hz.zero h0⟩
  realFile := h.realFile
  length := h.length

theorem isPlain_zero : isPlain 0 := by decide

/-- A complete line at the front of the pending bytes. -/
theorem endLine_inv (h : c.Inv) {l rest : List UInt8} (hf : front c.pending = .line l rest) :
    (c.endLine (c.startLine + l.length)).Inv ∧
      LineAt (c.endLine (c.startLine + l.length)).readBuf c.startLine l ∧
      (c.endLine (c.startLine + l.length)).nextLine.pending = rest := by
  have hu := front_line hf
  have hlen := congrArg List.length hu
  have hpl := front_text_plain c.pending
  rw [pending, bytes_length] at hlen
  simp only [List.length_append, List.length_cons] at hlen
  have hrd := h.read_le
  have hst := le_trans h.start_le h.checked_le
  have hget := get_of_bytes (hu : bytes c.readBuf c.startLine _ = _)
  have hz : ZeroedIn (c.startLine + l.length) (c.startLine + l.length + 2) c.readBuf
      (c.endLine (c.startLine + l.length)).readBuf :=
    (ZeroedIn.update (le_refl _) (by omega)).trans (.update (by omega) (by omega))
  have h0 : ∀ i, c.startLine + l.length ≤ i → i < c.startLine + l.length + 2 →
      (c.endLine (c.startLine + l.length)).readBuf i = 0 := by
    intro i hi hi'
    obtain rfl | rfl : i = c.startLine + l.length ∨ i = c.startLine + l.length + 1 := by omega
    · exact update_zero_of_zero (Function.update_self ..) _
    · exact Function.update_self ..
  refine ⟨h.zeroed hz (k := c.startLine + l.length + 2) (by omega) (by omega) ?_, ?_, ?_⟩
  · intro i hi hi'
    by_cases hlt : i < c.startLine + l.length
    · obtain ⟨k, rfl⟩ := Nat.exists_eq_add_of_le hi
      rw [hz.eq_of_not_mem (.inl hlt), hget k (by omega)]
      exact hpl _ (by rw [hf]; exact List.getElem_mem _)
    · rw [h0 i (by omega) hi']
      exact isPlain_zero
  · exact {
      bound := by omega
      get := fun k hk => by
        rw [← hget k hk]
        exact hz.eq_of_not_mem (.inl (by omega))
      stop₀ := h0 (c.startLine + l.length) (le_refl _) (by omega)
      stop₁ := h0 (c.startLine + l.length + 1) (by omega) (by omega) }
  · have hn : (l ++ [cr, lf]).length = l.length + 2 := by simp
    have hu' : bytes c.readBuf c.startLine (c.readIdx - c.startLine) = (l ++ [cr, lf]) ++ rest :=
      hu.trans (by simp)
    have hrest := bytes_drop hu'
    rw [hn, ← Nat.add_assoc, show c.readIdx - c.startLine - (l.length + 2) =
      c.readIdx - (c.startLine + l.length + 2) by omega] at hrest
    exact (bytes_congr fun i hi _ => hz.eq_of_not_mem (.inr hi)).trans hrest

/-- A scan that finds no line moves `m_checked_idx` over plain bytes. -/
theorem advance_inv (h : c.Inv) {l : List UInt8} (hf : (front c.pending).text = l) :
    ({ c with checkedIdx := c.startLine + l.length }).Inv := by
  have hpre := front_text_prefix c.pending
  have hpl := front_text_plain c.pending
  rw [hf] at hpre hpl
  obtain ⟨r, hr⟩ := hpre
  have hlen := congrArg List.length hr
  rw [pending, bytes_length, List.length_append] at hlen
  have hst := le_trans h.start_le h.checked_le
  refine h.zeroed (ZeroedIn.refl 0 0 _) (Nat.le_add_right _ _) (by omega) ?_
  intro i hi hi'
  obtain ⟨k, rfl⟩ := Nat.exists_eq_add_of_le hi
  rw [get_of_bytes (hr.symm : bytes c.readBuf c.startLine _ = _) k (by omega)]
  exact hpl _ (List.getElem_mem _)

/-- What evaluating the loop condition leaves behind. -/
structure CondStep (c d : HttpConn) (status status' : LineStatus) : Prop where
  inv : d.Inv
  readIdx : d.readIdx = c.readIdx
  writeIdx : d.writeIdx = c.writeIdx
  startLine : d.startLine = c.startLine
  state : d.checkState = c.checkState
  length : d.contentLength = c.contentLength
  body : status' = .lineOk → d.AtBody
  progress : status' = .lineOk → (c.checkState = .content ∧ status = .lineOk ∧ d = c) ∨
    c.checkedIdx + 2 ≤ d.checkedIdx

theorem loopCond_ok (h : c.Inv) (status : LineStatus) :
    ∃ d status', c.loopCond status = .ok (d, status') ∧ CondStep c d status status' := by
  unfold loopCond
  split
  · rename_i hc
    exact ⟨c, .lineOk, rfl, h, rfl, rfl, rfl, rfl, rfl, fun _ => .inl hc.1, fun _ => .inl ⟨hc.1, hc.2, rfl⟩⟩
  · rw [parseLine_spec h.toScanning]
    cases hf : front c.pending with
    | line l rest =>
      obtain ⟨hinv, hline, -⟩ := endLine_inv h hf
      refine ⟨_, _, rfl, hinv, rfl, rfl, rfl, rfl, rfl, fun _ => .inr ⟨l, hline, rfl⟩, fun _ => .inr ?_⟩
      have hu : c.pending = (l ++ [cr]) ++ lf :: rest := by simpa using front_line hf
      have hcr : c.readBuf (c.startLine + l.length) = cr := by
        have := get_of_bytes (hu : bytes c.readBuf c.startLine _ = _) l.length (by simp)
        simpa using this
      have hle : c.checkedIdx ≤ c.startLine + l.length := by
        by_contra hlt
        have := h.plain (c.startLine + l.length) (by omega) (by omega)
        simp [hcr, isPlain] at this
      exact Nat.add_le_add_right hle 2
    | more l => exact ⟨_, _, rfl, advance_inv h (by rw [hf]; rfl), rfl, rfl, rfl, rfl, rfl, (by rintro ⟨⟩), (by rintro ⟨⟩)⟩
    | bad l => exact ⟨_, _, rfl, advance_inv h (by rw [hf]; rfl), rfl, rfl, rfl, rfl, rfl, (by rintro ⟨⟩), (by rintro ⟨⟩)⟩

-- ---------------------------------------------------------------------------
-- The body of the main loop
-- ---------------------------------------------------------------------------

/-- Moving `m_start_line` to `m_checked_idx`. -/
theorem Inv.nextLine (h : c.Inv) : c.nextLine.Inv where
  start_le := le_refl _
  checked_le := h.checked_le
  read_le := h.read_le
  plain i hs hi := absurd hi (by simp only [HttpConn.nextLine] at hs ⊢; omega)
  prev hpos := by
    have := h.start_le
    simp only [HttpConn.nextLine] at hpos ⊢
    by_cases hlt : c.startLine < c.checkedIdx
    · have := h.plain (c.checkedIdx - 1) (by omega) (by omega)
      intro he
      simp [he, isPlain] at this
    · rw [show c.checkedIdx = c.startLine by omega]
      exact h.prev (by omega)
  url := h.url
  realFile := h.realFile
  length := h.length

/-- What one iteration of the main loop leaves behind. The write buffer is not its
    business. -/
structure BodyStep (c c' : HttpConn) : Prop where
  inv : c'.Inv
  readIdx : c'.readIdx = c.readIdx
  checkedIdx : c'.checkedIdx = c.checkedIdx
  writeIdx : c'.writeIdx = c.writeIdx

theorem BodyStep.trans {c' c'' : HttpConn} (h : BodyStep c c') (h' : BodyStep c' c'') :
    BodyStep c c'' :=
  ⟨h'.inv, h'.readIdx.trans h.readIdx, h'.checkedIdx.trans h.checkedIdx,
    h'.writeIdx.trans h.writeIdx⟩

theorem doRequest_ok (fs : FileSystem) (h : c.Inv) (hst : c.checkState ≠ .requestLine) :
    ∃ c' code, c.doRequest fs = .ok (c', code) ∧ code ≠ .noRequest ∧ BodyStep c c' := by
  obtain ⟨u, e, hu, hue, he, h0⟩ := h.url hst
  have hrd := h.read_le
  obtain ⟨p, hp, -⟩ := @TextAt.exists_of_nul readBufferSize _ _ _ hue (by omega) h0
  have hfile : realFileOf c.realFile p (filenameLen - 1) = 0 := by rw [realFileOf_last, h.realFile]
  have hinv : ({ c with realFile := realFileOf c.realFile p }).Inv := { h with realFile := hfile }
  have hrun := doRequest_text fs hu hp h.realFile
  rw [← Prod.eta (openStep fs _ _)] at hrun
  refine ⟨_, _, hrun, ?_⟩
  unfold openStep
  split
  · exact ⟨nofun, hinv, rfl, rfl, rfl⟩
  · split
    · split
      · exact ⟨nofun, { hinv with }, rfl, rfl, rfl⟩
      · exact ⟨nofun, { hinv with }, rfl, rfl, rfl⟩
    · exact ⟨nofun, { hinv with }, rfl, rfl, rfl⟩

/-- The parse functions keep the indices and only zero bytes of the buffer. -/
theorem Inv.ofZeroed (h : c.Inv) {c' : HttpConn} {s e : Nat} (hz : ZeroedIn s e c.readBuf c'.readBuf)
    (hst : c'.startLine = c.startLine) (hck : c'.checkedIdx = c.checkedIdx)
    (hrd : c'.readIdx = c.readIdx) (hfile : c'.realFile = c.realFile)
    (hurl : c'.checkState ≠ .requestLine →
      ∃ u e, c'.url = some u ∧ u ≤ e ∧ e < c.readIdx ∧ c'.readBuf e = 0)
    (hlen : intMin ≤ c'.contentLength) : c'.Inv where
  start_le := by rw [hst, hck]; exact h.start_le
  checked_le := by rw [hck, hrd]; exact h.checked_le
  read_le := by rw [hrd]; exact h.read_le
  plain i hi hi' := by
    rw [hst] at hi
    rw [hck] at hi'
    rcases hz i with h1 | ⟨-, -, h1⟩
    · rw [h1]; exact h.plain i hi hi'
    · rw [h1]; exact isPlain_zero
  prev hpos := by
    rw [hst] at hpos ⊢
    exact hz.ne_cr (h.prev hpos)
  url := by rw [hrd]; exact hurl
  realFile := by rw [hfile]; exact h.realFile
  length := hlen

/-- Zeroing bytes of lines that were handed over leaves the pending bytes alone. -/
theorem pending_eq_of_zeroed {c' : HttpConn} {s e : Nat} (hz : ZeroedIn s e c.readBuf c'.readBuf)
    (he : e ≤ c.startLine) (hst : c'.startLine = c.startLine) (hrd : c'.readIdx = c.readIdx) :
    c'.pending = c.pending := by
  rw [pending, pending, hst, hrd]
  exact bytes_congr fun i hi _ => hz.eq_of_not_mem (.inr (by omega))

theorem requestLineStep_ok (h : c.Inv) (hst : c.checkState = .requestLine) {s : Nat}
    {l : List UInt8} (hl : LineAt c.readBuf s l) (hs : s + l.length < c.startLine) :
    BodyStep c (requestLineStep c s (cstr l)).1 ∧
      (requestLineStep c s (cstr l)).1.pending = c.pending ∧
      ((requestTarget (cstr l)).isSome → (requestLineStep c s (cstr l)).1.checkState = .header) := by
  obtain ⟨-, hstep⟩ := requestLineStep_text hl.text
  generalize (requestLineStep c s (cstr l)).1 = c' at *
  have hle := cstr_length_le l
  have hord := le_trans h.start_le h.checked_le
  have hsame := hstep.same
  refine ⟨⟨h.ofZeroed hstep.zeroed ?_ ?_ ?_ ?_ ?_ ?_, ?_, ?_, ?_⟩, ?_, ?_⟩
  case refine_5 =>
    intro hne
    cases htar : requestTarget (cstr l) with
    | none => exact absurd (hstep.reject htar) (by rw [hst]; exact hne)
    | some p =>
      obtain ⟨-, u, hu, -, hend, htext⟩ := hstep.accept p htar
      exact ⟨u, u + p.length, hu, Nat.le_add_right _ _, by omega, htext.stop⟩
  case refine_6 => rw [hsame]; exact h.length
  case refine_10 =>
    exact pending_eq_of_zeroed hstep.zeroed (by omega) (by rw [hsame]) (by rw [hsame])
  case refine_11 =>
    intro hsome
    obtain ⟨p, hp⟩ := Option.isSome_iff_exists.mp hsome
    exact (hstep.accept p hp).1
  all_goals rw [hsame]

theorem headerStep_ok (h : c.Inv) (hst : c.checkState = .header) (s : Nat) (l : List UInt8) :
    BodyStep c (headerStep c s l).1 ∧ (headerStep c s l).1.checkState ≠ .requestLine := by
  have hurl := h.url (by rw [hst]; decide)
  have hne : c.checkState ≠ .requestLine := by rw [hst]; decide
  unfold headerStep
  split
  · split
    · exact ⟨⟨{ h with url := fun _ => hurl }, rfl, rfl, rfl⟩, by simp⟩
    · exact ⟨⟨h, rfl, rfl, rfl⟩, hne⟩
  split
  · split
    · exact ⟨⟨{ h with }, rfl, rfl, rfl⟩, hne⟩
    · exact ⟨⟨h, rfl, rfl, rfl⟩, hne⟩
  split
  · exact ⟨⟨{ h with length := toInt32_ge _ }, rfl, rfl, rfl⟩, hne⟩
  split
  · exact ⟨⟨{ h with }, rfl, rfl, rfl⟩, hne⟩
  · exact ⟨⟨h, rfl, rfl, rfl⟩, hne⟩

/-- `parse_content` on the text that begins at `t`, with the condition of `BodyFits`
    in terms of `t`. -/
theorem parseContent_ok (h : c.Inv) {t : Nat}
    (ht : t ≤ c.checkedIdx) (hmax : c.contentLength ≤ intMax - c.checkedIdx)
    (hfit : c.contentLength + c.checkedIdx ≤ c.readIdx →
      -(t : Int) ≤ c.contentLength ∧ c.contentLength ≠ readBufferSize - (t : Int)) :
    ∃ c', c.parseContent t = .ok (c',
        if c.contentLength + c.checkedIdx ≤ c.readIdx then .getRequest else .noRequest) ∧
      BodyStep c c' ∧ c' = { c with readBuf := c'.readBuf } := by
  have hlen := h.length
  have hadd : addInt c.contentLength c.checkedIdx = .ok (c.contentLength + c.checkedIdx) :=
    if_pos ⟨by omega, by omega⟩
  rw [parseContent, hadd, ok_bind]
  by_cases hle : c.contentLength + c.checkedIdx ≤ c.readIdx
  · obtain ⟨hlo, hhi⟩ := hfit hle
    have hrd := h.read_le
    obtain ⟨i, hi⟩ : ∃ i : Nat, (t : Int) + c.contentLength = i := ⟨_, (Int.toNat_of_nonneg (by omega)).symm⟩
    have hlt : i < readBufferSize := by omega
    rw [if_pos hle, if_pos hle, hi, storeBuf_nat hlt, ok_bind]
    have hz : ZeroedIn i (i + 1) c.readBuf (Function.update c.readBuf i 0) :=
      .update (le_refl _) (Nat.lt_succ_self _)
    refine ⟨{ c with readBuf := Function.update c.readBuf i 0 }, rfl,
      ⟨h.ofZeroed hz rfl rfl rfl rfl ?_ h.length, rfl, rfl, rfl⟩, rfl⟩
    intro hne
    obtain ⟨u, e, hu, hue, he, h0⟩ := h.url hne
    exact ⟨u, e, hu, hue, he, hz.zero h0⟩
  · rw [if_neg hle, if_neg hle]
    exact ⟨c, rfl, ⟨h, rfl, rfl, rfl⟩, rfl⟩

/-- A `return` from the loop is a verdict, and content stays content, of the same length. -/
structure BodyResult (c c' : HttpConn) (next : Next) : Prop extends BodyStep c c' where
  verdict : ∀ code, next = .ret code → code ≠ .noRequest
  content : c.checkState = .content → c'.checkState = .content ∧ c'.contentLength = c.contentLength ∧
    c'.startLine = c.checkedIdx
  scans : c.checkState = .content → ∀ status, next = .again status → status ≠ .lineOk

theorem onRequestLine_line {s : Nat} {l : List UInt8} (hl : LineAt c.readBuf s l) :
    c.onRequestLine s = .ok ((requestLineStep c s (cstr l)).1,
      if (requestTarget (cstr l)).isSome then .again .lineOk else .ret .badRequest) := by
  obtain ⟨hcode, -⟩ := requestLineStep_text hl.text
  have hrun := parseRequestLine_line hl.text
  rw [← Prod.eta (requestLineStep c s (cstr l)), hcode] at hrun
  simp only [onRequestLine, hrun, ok_bind]
  cases (requestTarget (cstr l)).isSome <;> rfl

theorem headerStep_code {l : List UInt8} (hne : cstr l ≠ []) (s : Nat) :
    (headerStep c s l).2 = .noRequest := by
  simp only [headerStep, if_neg hne]
  repeat' split
  all_goals rfl

/-- What a header line other than the blank one may change. -/
theorem headerStep_same {l : List UInt8} (hne : cstr l ≠ []) (s : Nat) :
    (headerStep c s l).1 = { c with
      linger := (headerStep c s l).1.linger
      contentLength := (headerStep c s l).1.contentLength
      host := (headerStep c s l).1.host } := by
  simp only [headerStep, if_neg hne]
  repeat' split
  all_goals rfl

/-- A header line other than the blank one is consumed. -/
theorem onHeader_line (fs : FileSystem) {s : Nat} {l : List UInt8} (hl : LineAt c.readBuf s l)
    (hne : cstr l ≠ []) : c.onHeader fs s = .ok ((headerStep c s l).1, .again .lineOk) := by
  simp [onHeader, parseHeaders_line hl, headerStep_code hne]

/-- The blank line ends in a verdict, or the body of the request begins. -/
theorem onHeader_blank (fs : FileSystem) (h : c.Inv) (hst : c.checkState = .header) {s : Nat} {l : List UInt8}
    (hl : LineAt c.readBuf s l) (hnil : cstr l = []) :
    ∃ c' next, c.onHeader fs s = .ok (c', next) ∧ BodyStep c c' ∧
      ((c.contentLength = 0 ∧ ∃ code, next = .ret code ∧ code ≠ .noRequest ∧
          c.doRequest fs = .ok (c', code)) ∨
        (c.contentLength ≠ 0 ∧ next = .again .lineOk ∧ c' = { c with checkState := .content })) := by
  obtain ⟨hstep, hne⟩ := headerStep_ok h hst s l
  by_cases hlen : c.contentLength = 0
  · have hhs : headerStep c s l = (c, .getRequest) := by simp [headerStep, hnil, hlen]
    rw [hhs] at hstep hne
    obtain ⟨c', code, hreq, hcode, hstep'⟩ := doRequest_ok fs h hne
    exact ⟨c', .ret code, by simp [onHeader, parseHeaders_line hl, hhs, hreq], hstep',
      .inl ⟨hlen, code, rfl, hcode, hreq⟩⟩
  · have hhs : headerStep c s l = ({ c with checkState := .content }, .noRequest) := by
      simp [headerStep, hnil, hlen]
    rw [hhs] at hstep
    exact ⟨_, .again .lineOk, by simp [onHeader, parseHeaders_line hl, hhs], hstep,
      .inr ⟨hlen, rfl, rfl⟩⟩

theorem onContent_ok (fs : FileSystem) (h : c.Inv) (hst : c.checkState = .content) {t : Nat} (ht : t ≤ c.checkedIdx)
    (hmax : c.contentLength ≤ intMax - c.checkedIdx)
    (hfit : c.contentLength + c.checkedIdx ≤ c.readIdx →
      -(t : Int) ≤ c.contentLength ∧ c.contentLength ≠ readBufferSize - (t : Int)) :
    ∃ c' next, c.onContent fs t = .ok (c', next) ∧ BodyStep c c' ∧
      (∃ m n st a, c' = { c with readBuf := m, realFile := n, fileStat := st, fileAddress := a }) ∧
      (next = .again .lineOpen ∨ ∃ code, next = .ret code ∧ code ≠ .noRequest) := by
  obtain ⟨c', hrun, hstep, hsame⟩ := parseContent_ok h ht hmax hfit
  have hcont : c'.checkState = .content := by
    rw [hsame]
    exact hst
  simp only [onContent, hrun, ok_bind]
  split
  · obtain ⟨c'', code', hreq, hcode, hstep'⟩ :=
      doRequest_ok fs hstep.inv (by rw [hcont]; decide)
    obtain ⟨n, st, a, hsame'⟩ := doRequest_same fs _ hreq
    refine ⟨c'', .ret code', by simp [hreq], hstep.trans hstep', ⟨c'.readBuf, n, st, a, ?_⟩, .inr ⟨code', rfl, hcode⟩⟩
    calc c'' = { c' with realFile := n, fileStat := st, fileAddress := a } := hsame'
      _ = _ := by rw [hsame]
  · exact ⟨c', _, rfl, hstep, ⟨c'.readBuf, c.realFile, c.fileStat, c.fileAddress, hsame⟩, .inl rfl⟩

/-- The body of the loop is free of faults where the condition leaves it, if a body
    of content fits. -/
theorem loopBody_ok (fs : FileSystem) (h : c.Inv) (hbody : c.AtBody) (hfit : c.checkState = .content → c.BodyFits) :
    ∃ c' next, c.loopBody fs = .ok (c', next) ∧ BodyResult c c' next := by
  have hnext : BodyStep c c.nextLine := ⟨h.nextLine, rfl, rfl, rfl⟩
  cases hst : c.checkState with
  | requestLine =>
    rcases hbody with hc | ⟨l, hl, hck⟩
    · rw [hst] at hc; cases hc
    have hlt : c.startLine + l.length < c.nextLine.startLine := by
      simp only [nextLine]; omega
    obtain ⟨hstep, -⟩ := requestLineStep_ok h.nextLine hst hl hlt
    refine ⟨_, if (requestTarget (cstr l)).isSome then .again .lineOk else .ret .badRequest,
      by simp only [loopBody, hst, onRequestLine_line (c := c.nextLine) hl], hnext.trans hstep, ?_,
      by simp [hst], by simp [hst]⟩
    intro code hcode
    split at hcode <;> cases hcode
    decide
  | header =>
    rcases hbody with hc | ⟨l, hl, hck⟩
    · rw [hst] at hc; cases hc
    by_cases hnil : cstr l = []
    · obtain ⟨c', next, hrun, hstep, hnext'⟩ := onHeader_blank fs h.nextLine hst hl hnil
      refine ⟨c', next, by simp only [loopBody, hst, hrun], hnext.trans hstep, ?_, by simp [hst],
        by simp [hst]⟩
      rintro code rfl
      rcases hnext' with ⟨-, code', hc, hne, -⟩ | ⟨-, hc, -⟩
      · cases hc; exact hne
      · cases hc
    · obtain ⟨hstep, -⟩ := headerStep_ok h.nextLine hst c.startLine l
      exact ⟨_, .again .lineOk, by simp only [loopBody, hst, onHeader_line (c := c.nextLine) fs hl hnil],
        hnext.trans hstep, nofun, by simp [hst], by simp [hst]⟩
  | content =>
    obtain ⟨hmax, hpos⟩ := hfit hst
    obtain ⟨c', next, hrun, hstep, ⟨m, n, st, a, rfl⟩, hres⟩ := onContent_ok fs h.nextLine hst h.start_le hmax hpos
    refine ⟨_, next, by simp only [loopBody, hst, hrun], hnext.trans hstep, ?_, fun _ => ⟨hst, rfl, rfl⟩, ?_⟩
    · rintro code rfl
      rcases hres with hres | ⟨code', hres, hcode⟩ <;> cases hres
      exact hcode
    · rintro - status rfl
      rcases hres with hres | ⟨code', hres, -⟩ <;> cases hres
      rintro ⟨⟩

-- ---------------------------------------------------------------------------
-- The main loop and runs
-- ---------------------------------------------------------------------------

/-- Iterations the loop can still make: every line takes two bytes, and content
    that follows a header section takes one iteration without a line. -/
def iterations (c : HttpConn) (status : LineStatus) : Nat :=
  c.readIdx - c.checkedIdx + if c.checkState = .content ∧ status = .lineOk then 2 else 1

-- The four ways an iteration of the main loop can go.

theorem readLoop_stop (fs : FileSystem) {status status' : LineStatus} (hcond : c.loopCond status = .ok (d, status'))
    (hne : status' ≠ .lineOk) (n : Nat) :
    bodies fs (n + 1) c status = [] ∧ readLoop fs (n + 1) c status = .ok (d, .noRequest) := by
  refine ⟨?_, by simp [readLoop, hcond, hne]⟩
  simp only [bodies, hcond]
  cases status' <;> first | rfl | exact absurd rfl hne

theorem readLoop_fault {status : LineStatus} {f : Fault}
    (hcond : c.loopCond status = .ok (d, .lineOk)) (hbody : d.loopBody fs = .error f) (n : Nat) :
    bodies fs (n + 1) c status = [d] ∧ readLoop fs (n + 1) c status = .error f := by
  refine ⟨by simp only [bodies, hcond, hbody], ?_⟩
  simp only [readLoop, hcond, hbody, ok_bind, if_true]
  rfl

theorem readLoop_ret {c' : HttpConn} {status : LineStatus} {code : HttpCode}
    (hcond : c.loopCond status = .ok (d, .lineOk)) (hbody : d.loopBody fs = .ok (c', .ret code))
    (n : Nat) :
    bodies fs (n + 1) c status = [d] ∧ readLoop fs (n + 1) c status = .ok (c', code) := by
  simp [bodies, readLoop, hcond, hbody]

theorem readLoop_next {c' : HttpConn} {status status' : LineStatus}
    (hcond : c.loopCond status = .ok (d, .lineOk)) (hbody : d.loopBody fs = .ok (c', .again status'))
    (n : Nat) :
    bodies fs (n + 1) c status = d :: bodies fs n c' status' ∧
      readLoop fs (n + 1) c status = readLoop fs n c' status' := by
  simp [bodies, readLoop, hcond, hbody]

/-- How the main loop goes: the states in which it enters its body, and what it comes to. -/
inductive Loops (fs : FileSystem) : HttpConn → LineStatus → List HttpConn →
    Except Fault (HttpConn × HttpCode) → Prop where
  | fuel (c : HttpConn) (status : LineStatus) : Loops fs c status [] (.error .outOfFuel)
  | cond {c : HttpConn} {status : LineStatus} {f : Fault} : c.loopCond status = .error f →
      Loops fs c status [] (.error f)
  | stop {c d : HttpConn} {status status' : LineStatus} : c.loopCond status = .ok (d, status') →
      status' ≠ .lineOk → Loops fs c status [] (.ok (d, .noRequest))
  | fault {c d : HttpConn} {status : LineStatus} {f : Fault} : c.loopCond status = .ok (d, .lineOk) →
      d.loopBody fs = .error f → Loops fs c status [d] (.error f)
  | ret {c d c' : HttpConn} {status : LineStatus} {code : HttpCode} :
      c.loopCond status = .ok (d, .lineOk) → d.loopBody fs = .ok (c', .ret code) →
      Loops fs c status [d] (.ok (c', code))
  | next {c d c' : HttpConn} {status status' : LineStatus} {ds : List HttpConn}
      {r : Except Fault (HttpConn × HttpCode)} : c.loopCond status = .ok (d, .lineOk) →
      d.loopBody fs = .ok (c', .again status') → Loops fs c' status' ds r → Loops fs c status (d :: ds) r

theorem readLoop_loops (fs : FileSystem) (n : Nat) (c : HttpConn) (status : LineStatus) :
    Loops fs c status (bodies fs n c status) (readLoop fs n c status) := by
  induction n generalizing c status with
  | zero => exact .fuel c status
  | succ n ih =>
    cases hcond : c.loopCond status with
    | error f =>
      have hbs : bodies fs (n + 1) c status = [] := by simp [bodies, hcond]
      have hrl : readLoop fs (n + 1) c status = .error f := by rw [readLoop, hcond]; rfl
      rw [hbs, hrl]
      exact .cond hcond
    | ok ds =>
      obtain ⟨d, status'⟩ := ds
      by_cases hok : status' = .lineOk
      · subst hok
        cases hbody : d.loopBody fs with
        | error f =>
          obtain ⟨hbs, hrl⟩ := readLoop_fault hcond hbody n
          rw [hbs, hrl]
          exact .fault hcond hbody
        | ok cn =>
          obtain ⟨c', next⟩ := cn
          cases next with
          | ret code =>
            obtain ⟨hbs, hrl⟩ := readLoop_ret hcond hbody n
            rw [hbs, hrl]
            exact .ret hcond hbody
          | again status' =>
            obtain ⟨hbs, hrl⟩ := readLoop_next hcond hbody n
            rw [hbs, hrl]
            exact .next hcond hbody (ih c' status')
      · obtain ⟨hbs, hrl⟩ := readLoop_stop fs hcond hok n
        rw [hbs, hrl]
        exact .stop hcond hok

theorem readLoop_ok {n : Nat} (h : c.Inv) {status : LineStatus} (hn : c.iterations status ≤ n)
    (hfit : ∀ d ∈ bodies fs n c status, d.checkState = .content → d.BodyFits) :
    (∃ c' code, readLoop fs n c status = .ok (c', code) ∧ c'.Inv ∧ c'.writeIdx = c.writeIdx) ∧
      ∀ d ∈ bodies fs n c status, d.Ordered := by
  induction n generalizing c status with
  | zero => simp only [iterations] at hn; split at hn <;> omega
  | succ n ih =>
    obtain ⟨d, status', hcond, hstep⟩ := loopCond_ok h status
    by_cases hok : status' = .lineOk
    · subst hok
      have hord := hstep.inv.ordered
      have hmem : d ∈ bodies fs (n + 1) c status := by simp [bodies, hcond]
      obtain ⟨c', next, hrun, hbs⟩ := loopBody_ok fs hstep.inv (hstep.body rfl)
        (hfit d hmem)
      cases next with
      | ret code =>
        obtain ⟨hbodies, hloop⟩ := readLoop_ret hcond hrun n
        rw [hbodies, hloop]
        exact ⟨⟨c', code, rfl, hbs.inv, hbs.writeIdx.trans hstep.writeIdx⟩, by simpa using hord⟩
      | again status' =>
        obtain ⟨hbodies, hloop⟩ := readLoop_next hcond hrun n
        rw [hbodies] at hfit ⊢
        rw [hloop]
        rw [List.forall_mem_cons] at hfit ⊢
        have hn' : c'.iterations status' ≤ n := by
          have hrd := hbs.readIdx
          have hck := hbs.checkedIdx
          have hrd' := hstep.readIdx
          have hle := hbs.inv.checked_le
          rcases hstep.progress rfl with ⟨hc, hs, rfl⟩ | hprog
          · have hne := hbs.scans hc status' rfl
            simp only [iterations, hc, hs, hne, and_self, and_false, if_true, if_false] at hn ⊢
            omega
          · simp only [iterations] at hn ⊢
            split <;> split at hn <;> omega
        obtain ⟨⟨c'', code, hrun', hinv, hwr⟩, hall⟩ := ih hbs.inv hn' hfit.2
        exact ⟨⟨c'', code, hrun', hinv, hwr.trans (hbs.writeIdx.trans hstep.writeIdx)⟩, hord, hall⟩
    · obtain ⟨hbodies, hloop⟩ := readLoop_stop fs hcond hok n
      rw [hbodies, hloop]
      exact ⟨⟨d, .noRequest, rfl, hstep.inv, hstep.writeIdx⟩, by simp⟩

theorem processRead_ok (h : c.Inv)
    (hfit : ∀ d ∈ bodies fs readFuel c .lineOk, d.checkState = .content → d.BodyFits) :
    (∃ c' code, c.processRead fs = .ok (c', code) ∧ c'.Inv ∧ c'.writeIdx = c.writeIdx) ∧
      ∀ d ∈ bodies fs readFuel c .lineOk, d.Ordered := by
  refine readLoop_ok h ?_ hfit
  have := h.read_le
  simp only [iterations, readFuel]
  split <;> omega

-- The converse direction: a run without a fault met the condition.

theorem parseContent_fits {r : HttpConn × HttpCode} {t : Nat} (hrun : c.parseContent t = .ok r) :
    c.contentLength ≤ intMax - c.checkedIdx ∧
      (c.contentLength + c.checkedIdx ≤ c.readIdx →
        -(t : Int) ≤ c.contentLength ∧ c.contentLength ≠ readBufferSize - (t : Int)) := by
  unfold parseContent addInt at hrun
  split at hrun
  · rename_i hadd
    refine ⟨by omega, fun hle => ?_⟩
    rw [ok_bind, if_pos hle] at hrun
    simp only [storeBuf, store] at hrun
    split at hrun
    · omega
    · cases hrun
  · cases hrun

theorem loopBody_fits {r : HttpConn × Next} (hrun : c.loopBody fs = .ok r)
    (hst : c.checkState = .content) : c.BodyFits := by
  simp only [loopBody, hst, onContent] at hrun
  cases hpc : c.nextLine.parseContent c.startLine with
  | error f => rw [hpc] at hrun; cases hrun
  | ok r => exact parseContent_fits (c := c.nextLine) hpc

theorem readLoop_fits {n : Nat} {status : LineStatus} {r : HttpConn × HttpCode}
    (hrun : readLoop fs n c status = .ok r) :
    ∀ d ∈ bodies fs n c status, d.checkState = .content → d.BodyFits := by
  have h := readLoop_loops fs n c status
  generalize bodies fs n c status = ds, readLoop fs n c status = o at h hrun
  induction h with
  | fuel _ _ => cases hrun
  | cond _ => cases hrun
  | stop _ _ => simp
  | fault _ _ => cases hrun
  | ret _ hbody => simpa using loopBody_fits hbody
  | next _ hbody _ ih => exact List.forall_mem_cons.mpr ⟨loopBody_fits hbody, ih hrun⟩

/-- A safe run of deliveries: no access leaves the buffer, no addition
    overflows, and the indices are in order in every state. -/
def SafeRun (fs : FileSystem) (c : HttpConn) (ds : List (List Recv)) : Prop :=
  (∃ c', feed fs c ds = .ok c') ∧ ∀ d ∈ feedStates fs c ds ++ feedBodies fs c ds, d.Ordered

theorem feed_safe (h : c.Inv) {ds : List (List Recv)}
    (hfit : ∀ d ∈ feedBodies fs c ds, d.checkState = .content → d.BodyFits) : SafeRun fs c ds := by
  induction ds generalizing c with
  | nil => exact ⟨⟨c, rfl⟩, by simpa [feedStates, feedBodies] using h.ordered⟩
  | cons rs ds ih =>
    have hinv := read_inv h rs
    unfold SafeRun feed feedStates feedBodies
    unfold feedBodies at hfit
    rcases hr : c.read rs with ⟨c', ok⟩
    rw [hr] at hinv hfit
    cases ok with
    | false => exact ⟨⟨c', rfl⟩, by simpa using ⟨h.ordered, hinv.ordered⟩⟩
    | true =>
      simp only [List.forall_mem_append] at hfit
      obtain ⟨⟨c'', code, hrun, hinv', -⟩, hord⟩ := processRead_ok hinv hfit.1
      simp only [hrun] at hfit ⊢
      obtain ⟨hok, hall⟩ := ih hinv' hfit.2
      refine ⟨hok, ?_⟩
      simp only [List.forall_mem_append, List.forall_mem_cons] at hall ⊢
      exact ⟨⟨h.ordered, hinv.ordered, hall.1⟩, hord, hall.2⟩

theorem feed_fits {ds : List (List Recv)} {r : HttpConn} (hrun : feed fs c ds = .ok r) :
    ∀ d ∈ feedBodies fs c ds, d.checkState = .content → d.BodyFits := by
  induction ds generalizing c with
  | nil => simp [feedBodies]
  | cons rs ds ih =>
    unfold feed at hrun
    unfold feedBodies
    rcases hr : c.read rs with ⟨c', ok⟩
    rw [hr] at hrun
    cases ok with
    | false => simp
    | true =>
      cases hpr : c'.processRead fs with
      | error f => simp only [hpr] at hrun; cases hrun
      | ok cn =>
        simp only [hpr, ok_bind] at hrun
        simp only [hpr, List.forall_mem_append]
        exact ⟨readLoop_fits hpr, ih hrun⟩

-- Parsing and reading leave the write buffer alone.

theorem recvLoop_writeIdx (c : HttpConn) (rs : List Recv) :
    (c.recvLoop rs).1.writeIdx = c.writeIdx := by
  fun_induction recvLoop c rs with
  | case6 c _ bs rs _ ih => exact ih
  | _ => rfl

theorem read_writeIdx (c : HttpConn) (rs : List Recv) : (c.read rs).1.writeIdx = c.writeIdx := by
  unfold read
  split
  · rfl
  · exact recvLoop_writeIdx c rs

/-- Responses are prepared on an empty write buffer: deliveries keep it as `init` left it. -/
theorem feed_writeIdx (h : c.Inv) {ds : List (List Recv)} {r : HttpConn}
    (hrun : feed fs c ds = .ok r) : r.writeIdx = c.writeIdx := by
  induction ds generalizing c with
  | nil => cases hrun; rfl
  | cons rs ds ih =>
    have hinv := read_inv h rs
    rw [← read_writeIdx c rs]
    unfold feed at hrun
    generalize c.read rs = p at *
    obtain ⟨c', ok⟩ := p
    cases ok with
    | false => cases hrun; rfl
    | true =>
      cases hpr : c'.processRead fs with
      | error f => simp only [hpr] at hrun; cases hrun
      | ok p =>
        obtain ⟨⟨c'', code, hrun', hinv', hwr⟩, -⟩ := processRead_ok hinv (readLoop_fits hpr)
        simp only [hrun', ok_bind] at hrun
        exact (ih hinv' hrun).trans hwr

end HttpConn

end Http
