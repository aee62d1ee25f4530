-- SUMMARY: Which header line declares the length of a body, with which value, and the exact condition on the bytes of a stream under which no delivery of it leaves the read buffer.
import LinuxLearning.HttpConn.Body

/-!
# The declared length

The parser leaves the read buffer only through the body length that the client declares. A
header line declares one if it is `Content-Length` up to its first NUL or its end: the number
behind the NUL is taken as it is, negative or huge. `OpensBody` reads off the bytes, as they are
delivered, which lines come before a body. The last of them that declares a length decides, and
`LengthFits` is what its value has to satisfy. Nothing else in the stream matters.
-/

namespace Http

open Memory CString HttpConn

-- ---------------------------------------------------------------------------
-- What the bytes say
-- ---------------------------------------------------------------------------

/-- With `n` declared so far and `u` not handed over yet, the pieces `ps` open a body: `ls` are the
    lines up to the blank one, `body` is there behind it, and `later` are the pieces after that. The
    next piece arrives where there is no complete line, behind a request line that is refused, and
    behind a blank line with no length declared. -/
inductive OpensBody : CheckState → Int → List UInt8 → List (List UInt8) →
    List (CheckState × List UInt8) → List UInt8 → List (List UInt8) → Prop where
  | wait {st n u p ps ls body later} : (∀ l rest, front u ≠ .line l rest) →
      OpensBody st n (u ++ p) ps ls body later → OpensBody st n u (p :: ps) ls body later
  | refused {n u l rest p ps ls body later} : front u = .line l rest → requestTarget (cstr l) = none →
      OpensBody .requestLine n (rest ++ p) ps ls body later →
      OpensBody .requestLine n u (p :: ps) ((.requestLine, l) :: ls) body later
  | request {n u l rest t ps ls body later} : front u = .line l rest → requestTarget (cstr l) = some t →
      OpensBody .header n rest ps ls body later → OpensBody .requestLine n u ps ((.requestLine, l) :: ls) body later
  | header {n u l rest ps ls body later} : front u = .line l rest → cstr l ≠ [] →
      OpensBody .header (lengthAfter n l) rest ps ls body later → OpensBody .header n u ps ((.header, l) :: ls) body later
  | answered {n u l rest p ps ls body later} : front u = .line l rest → cstr l = [] → n = 0 →
      OpensBody .header n (rest ++ p) ps ls body later → OpensBody .header n u (p :: ps) ((.header, l) :: ls) body later
  | blank {n u l rest ps} : front u = .line l rest → cstr l = [] → n ≠ 0 →
      OpensBody .header n u ps [(.header, l)] rest ps

/-- The bytes of the lines, with their line ends. -/
def headBytes : List (CheckState × List UInt8) → Nat
  | [] => 0
  | (_, l) :: ls => l.length + 2 + headBytes ls

/-- How far into the body the line scanner has come when `parse_content` is called last: behind the
    complete lines, and behind what an earlier call has scanned. -/
def reach : List UInt8 → List (List UInt8) → Nat
  | u, [] => lineBytes 0 u
  | u, p :: ps => u.length - (skim u).length + reach (skim u ++ p) ps

/-- What a declared length `n` has to satisfy with `k` bytes before the body: the body does not end
    before the buffer begins, and its end is an `int` wherever it is measured from. -/
structure LengthFits (k : Nat) (n : Int) (body : List UInt8) (later : List (List UInt8)) : Prop where
  low : -(k : Int) ≤ n
  high : n + k + reach body later ≤ intMax

theorem headBytes_cons (st : CheckState) (l : List UInt8) (ls : List (CheckState × List UInt8)) :
    headBytes ((st, l) :: ls) = l.length + 2 + headBytes ls := rfl

theorem declaredLength_request (n : Int) (l : List UInt8) (ls : List (CheckState × List UInt8)) :
    declaredLength n ((.requestLine, l) :: ls) = declaredLength n ls := rfl

theorem declaredLength_header (n : Int) (l : List UInt8) (ls : List (CheckState × List UInt8)) :
    declaredLength n ((.header, l) :: ls) = declaredLength (lengthAfter n l) ls := rfl

/-- A blank line declares nothing. -/
theorem lengthAfter_blank {l : List UInt8} (h : cstr l = []) (n : Int) : lengthAfter n l = n := by
  rw [lengthAfter, h, if_neg (by decide)]

theorem reach_le (u : List UInt8) (ps : List (List UInt8)) : reach u ps ≤ u.length + ps.flatten.length := by
  induction ps generalizing u with
  | nil =>
    have hskim := lineBytes_skim u
    simp only [reach]
    omega
  | cons p ps ih =>
    have hle := ih (skim u ++ p)
    have hskim := skim_length_le u
    simp only [reach, List.flatten_cons, List.length_append] at hle ⊢
    omega

/-- Later calls measure from further on. -/
theorem lineBytes_le_reach (u : List UInt8) (ps : List (List UInt8)) : lineBytes 0 u ≤ reach u ps := by
  cases ps with
  | nil => exact Nat.le_refl _
  | cons p ps =>
    have hskim := lineBytes_skim u
    simp only [reach]
    omega

namespace HttpConn

variable {fs : FileSystem} {c c' d : HttpConn} {u l rest : List UInt8} {ps : List (List UInt8)} {n m : Nat}
  {status : LineStatus}

-- ---------------------------------------------------------------------------
-- Deliveries as pieces
-- ---------------------------------------------------------------------------

/-- What one `read()` appends to `k` bytes in the buffer, if it returns true. -/
def received (k : Nat) : List Recv → Option (List UInt8)
  | .error :: _ => none
  | .data [] :: _ => none
  | .data (b :: bs) :: rs =>
    if k < readBufferSize then
      let p := (b :: bs).take (readBufferSize - k)
      (received (k + p.length) rs).map (p ++ ·)
    else none
  | _ => if k < readBufferSize then some [] else none

/-- The pieces that are delivered, up to a `read()` that returns false. -/
def pieces (k : Nat) : List (List Recv) → List (List UInt8)
  | [] => []
  | rs :: ds =>
    match received k rs with
    | none => []
    | some p => p :: pieces (k + p.length) ds

/-- The calls of `process_read` for the pieces. -/
def feedPieces (fs : FileSystem) : HttpConn → List (List UInt8) → Except Fault HttpConn
  | c, [] => .ok c
  | c, p :: ps => do
    let (c, _) ← (c.append p).processRead fs
    feedPieces fs c ps

theorem recvLoop_received (c : HttpConn) (rs : List Recv) : match received c.readIdx rs with
    | none => (c.recvLoop rs).2 = false
    | some p => c.recvLoop rs = (c.append p, true) ∧ c.readIdx + p.length < readBufferSize := by
  induction rs generalizing c with
  | nil =>
    by_cases hk : c.readIdx < readBufferSize
    · simp [received, recvLoop, hk, Nat.not_le.mpr hk, append_nil]
    · simp [received, recvLoop, hk, Nat.not_lt.mp hk]
  | cons r rs ih =>
    by_cases hk : c.readIdx < readBufferSize
    · have hle : ¬ readBufferSize ≤ c.readIdx := Nat.not_le.mpr hk
      rcases r with (_ | ⟨b, bs⟩) | _ | _
      · simp [received, recvLoop, hle]
      · have hrest := ih (c.append ((b :: bs).take (readBufferSize - c.readIdx)))
        have hidx : (c.append ((b :: bs).take (readBufferSize - c.readIdx))).readIdx =
            c.readIdx + ((b :: bs).take (readBufferSize - c.readIdx)).length := rfl
        rw [hidx] at hrest
        simp only [received, if_pos hk, recvLoop, if_neg hle]
        cases hrec : received (c.readIdx + ((b :: bs).take (readBufferSize - c.readIdx)).length) rs with
        | none =>
          rw [hrec] at hrest
          exact hrest
        | some p =>
          rw [hrec] at hrest
          simp only [Option.map_some, append_append, List.length_append, ← Nat.add_assoc]
          exact hrest
      · simp [received, recvLoop, hk, hle, append_nil]
      · simp [received, recvLoop, hle]
    · have hle := Nat.not_lt.mp hk
      rcases r with (_ | ⟨b, bs⟩) | _ | _
      · simp [received, recvLoop, hle]
      all_goals simp [received, recvLoop, hk, hle]

theorem read_received (c : HttpConn) (rs : List Recv) : match received c.readIdx rs with
    | none => (c.read rs).2 = false
    | some p => c.read rs = (c.append p, true) ∧ c.readIdx + p.length < readBufferSize := by
  have h := recvLoop_received c rs
  by_cases hfull : readBufferSize ≤ c.readIdx
  · rw [read, if_pos hfull]
    cases hrec : received c.readIdx rs with
    | none => rfl
    | some p =>
      simp only [hrec] at h
      omega
  · rwa [read, if_neg hfull]

/-- The pieces fit into the buffer. -/
theorem pieces_length (k : Nat) (ds : List (List Recv)) (hne : pieces k ds ≠ []) :
    k + (pieces k ds).flatten.length < readBufferSize := by
  induction ds generalizing k with
  | nil => exact absurd rfl hne
  | cons rs ds ih =>
    unfold pieces at hne ⊢
    have hread := read_received { blank with readIdx := k } rs
    cases hrec : received k rs with
    | none => simp [hrec] at hne
    | some p =>
      simp only [hrec] at hread ⊢
      by_cases hnil : pieces (k + p.length) ds = []
      · simpa [hnil] using hread.2
      · have hrest := ih (k + p.length) hnil
        simp only [List.flatten_cons, List.length_append]
        omega

/-- What the steps of the loop keep holds wherever the body is entered, and where the loop ends. -/
theorem Loops.keeps {I : HttpConn → Prop} {ds : List HttpConn} {r : Except Fault (HttpConn × HttpCode)}
    (hloops : Loops fs c status ds r) (hc : I c)
    (hcond : ∀ {c d status status'}, I c → c.loopCond status = .ok (d, status') → I d)
    (hbody : ∀ {c d c' status next}, I c → c.loopCond status = .ok (d, .lineOk) →
      d.loopBody fs = .ok (c', next) → I c') :
    (∀ d ∈ ds, I d) ∧ ∀ c' code, r = .ok (c', code) → I c' := by
  induction hloops with
  | fuel _ _ => exact ⟨by simp, by rintro _ _ ⟨⟩⟩
  | cond _ => exact ⟨by simp, by rintro _ _ ⟨⟩⟩
  | stop hd _ =>
    refine ⟨by simp, ?_⟩
    rintro _ _ ⟨⟩
    exact hcond hc hd
  | fault hd _ => exact ⟨by simpa using hcond hc hd, by rintro _ _ ⟨⟩⟩
  | ret hd hrun =>
    refine ⟨by simpa using hcond hc hd, ?_⟩
    rintro _ _ ⟨⟩
    exact hbody hc hd hrun
  | next hd hrun _ ih =>
    obtain ⟨hall, hend⟩ := ih (hbody hc hd hrun)
    exact ⟨List.forall_mem_cons.mpr ⟨hcond hc hd, hall⟩, hend⟩

theorem processRead_kept {code : HttpCode} (h : c.Inv) (hrun : c.processRead fs = .ok (c', code)) :
    c'.Inv ∧ c'.readIdx = c.readIdx := by
  have hloops := readLoop_loops fs readFuel c .lineOk
  refine (hloops.keeps (I := fun d => d.Inv ∧ d.readIdx = c.readIdx) ⟨h, rfl⟩ ?_ ?_).2 c' code hrun
  · rintro e d status status' ⟨he, hidx⟩ hcond
    obtain ⟨d', s', hcond', hstep⟩ := loopCond_ok he status
    cases hcond.symm.trans hcond'
    exact ⟨hstep.inv, hstep.readIdx.trans hidx⟩
  · rintro e d c' status next ⟨he, hidx⟩ hcond hbody
    obtain ⟨d', s', hcond', hstep⟩ := loopCond_ok he status
    cases hcond.symm.trans hcond'
    obtain ⟨c'', next', hbody', hres⟩ := loopBody_ok fs hstep.inv (hstep.body rfl) (loopBody_fits hbody)
    cases hbody.symm.trans hbody'
    exact ⟨hres.inv, hres.readIdx.trans (hstep.readIdx.trans hidx)⟩

theorem feed_pieces (fs : FileSystem) {ds : List (List Recv)} (h : c.Inv) :
    (∃ r, feed fs c ds = .ok r) ↔ ∃ r, feedPieces fs c (pieces c.readIdx ds) = .ok r := by
  induction ds generalizing c with
  | nil => exact iff_of_true ⟨c, rfl⟩ ⟨c, rfl⟩
  | cons rs ds ih =>
    have hread := read_received c rs
    have hinv := read_inv h rs
    unfold feed pieces
    cases hrec : received c.readIdx rs with
    | none =>
      simp only [hrec] at hread
      rcases hr : c.read rs with ⟨c', ok⟩
      rw [hr] at hread
      obtain rfl : ok = false := hread
      exact iff_of_true ⟨c', rfl⟩ ⟨c, rfl⟩
    | some p =>
      simp only [hrec] at hread
      obtain ⟨hr, -⟩ := hread
      rw [hr] at hinv
      simp only [hr, feedPieces]
      cases hrun : (c.append p).processRead fs with
      | error f => exact iff_of_false (by rintro ⟨r, ⟨⟩⟩) (by rintro ⟨r, ⟨⟩⟩)
      | ok r =>
        obtain ⟨c', code⟩ := r
        obtain ⟨hinv', hidx⟩ := processRead_kept hinv hrun
        have hidx : c'.readIdx = c.readIdx + p.length := hidx
        rw [← hidx]
        exact ih hinv'

/-- The rest of a call, and the calls for the pieces that come after it, are free of faults. -/
def Returns (fs : FileSystem) (m : Nat) (c : HttpConn) (status : LineStatus) (ps : List (List UInt8)) : Prop :=
  ∃ r, (do let (c', _) ← readLoop fs m c status; feedPieces fs c' ps) = Except.ok r

theorem returns_nil {code : HttpCode} (hrun : readLoop fs m c status = .ok (c', code)) :
    Returns fs m c status [] :=
  ⟨c', by rw [hrun]; rfl⟩

theorem returns_cons {code : HttpCode} (hrun : readLoop fs m c status = .ok (c', code)) (p : List UInt8)
    (ps : List (List UInt8)) : Returns fs m c status (p :: ps) ↔ Returns fs readFuel (c'.append p) .lineOk ps := by
  rw [Returns, hrun]
  rfl

theorem returns_next {k : Nat} {status' : LineStatus}
    (hrun : readLoop fs m c status = readLoop fs k c' status') (ps : List (List UInt8)) :
    Returns fs m c status ps ↔ Returns fs k c' status' ps := by
  rw [Returns, hrun]
  rfl

theorem not_returns {f : Fault} (hrun : readLoop fs m c status = .error f) : ¬ Returns fs m c status ps := by
  rintro ⟨r, hr⟩
  rw [hrun] at hr
  cases hr

-- ---------------------------------------------------------------------------
-- A body that the buffer has room for
-- ---------------------------------------------------------------------------

/-- A connection of `k` received bytes in a body of `n` that does not end before the buffer begins. -/
structure InBody (n : Int) (k : Nat) (c : HttpConn) : Prop where
  inv : c.Inv
  state : c.checkState = .content
  length : c.contentLength = n
  readIdx : c.readIdx = k
  low : -(c.startLine : Int) ≤ n

section InBody

variable {b : Int} {k : Nat}

theorem InBody.fits (h : c.InBody b k) (hb : b ≤ readBufferSize) (hk : k < readBufferSize) : c.BodyFits := by
  have hstart := h.inv.start_le
  have hchecked := h.inv.checked_le
  have hlen := h.length
  have hidx := h.readIdx
  have hlow := h.low
  simp only [BodyFits, readBufferSize, intMax] at *
  refine ⟨by omega, fun hle => ⟨by omega, by omega⟩⟩

theorem InBody.append (h : c.InBody b k) (p : List UInt8) (hle : k + p.length ≤ readBufferSize) :
    (c.append p).InBody b (k + p.length) :=
  ⟨h.inv.append p (h.readIdx ▸ hle), h.state, h.length, congrArg (· + p.length) h.readIdx, h.low⟩

theorem InBody.loops {ds : List HttpConn} {r : Except Fault (HttpConn × HttpCode)} (h : c.InBody b k)
    (hloops : Loops fs c status ds r) :
    (∀ d ∈ ds, d.InBody b k) ∧ ∀ c' code, r = .ok (c', code) → c'.InBody b k := by
  have hcond : ∀ {c d : HttpConn} {status status' : LineStatus}, c.InBody b k →
      c.loopCond status = .ok (d, status') → d.InBody b k ∧ (status' = .lineOk → d.AtBody) := by
    intro c d status status' h hcond
    obtain ⟨d', s', hcond', hstep⟩ := loopCond_ok h.inv status
    cases hcond.symm.trans hcond'
    exact ⟨⟨hstep.inv, hstep.state.trans h.state, hstep.length.trans h.length, hstep.readIdx.trans h.readIdx,
      by rw [hstep.startLine]; exact h.low⟩, hstep.body⟩
  refine hloops.keeps h (fun h hd => (hcond h hd).1) ?_
  intro c d c' status next h hd hbody
  obtain ⟨hin, hat⟩ := hcond h hd
  obtain ⟨c'', next', hbody', hres⟩ := loopBody_ok fs hin.inv (hat rfl) (loopBody_fits hbody)
  cases hbody.symm.trans hbody'
  obtain ⟨hst, hlen, hstart⟩ := hres.content hin.state
  have hlow := hin.low
  have hle := hin.inv.start_le
  exact ⟨hres.inv, hst, hlen.trans hin.length, hres.readIdx.trans hin.readIdx, by omega⟩

theorem InBody.readLoop (fs : FileSystem) (h : c.InBody b k) (hb : b ≤ readBufferSize) (hk : k < readBufferSize)
    (hm : c.iterations status ≤ m) :
    ∃ c' code, readLoop fs m c status = .ok (c', code) ∧ c'.InBody b k := by
  obtain ⟨hall, hend⟩ := h.loops (readLoop_loops fs m c status)
  obtain ⟨⟨c', code, hrun, -⟩, -⟩ := readLoop_ok h.inv hm fun d hd _ => (hall d hd).fits hb hk
  exact ⟨c', code, hrun, hend c' code hrun⟩

theorem Inv.iterations_le (h : c.Inv) (status : LineStatus) : c.iterations status ≤ readFuel := by
  have := h.read_le
  simp only [iterations, readFuel]
  split <;> omega

/-- A length up to the size of the buffer is never found out of bounds. -/
theorem InBody.returns (fs : FileSystem) (h : c.InBody b k) (hb : b ≤ readBufferSize)
    (hroom : k + ps.flatten.length < readBufferSize) (hm : c.iterations status ≤ m) :
    Returns fs m c status ps := by
  induction ps generalizing c k m status with
  | nil =>
    obtain ⟨c', code, hrun, -⟩ := h.readLoop fs hb hroom hm
    exact returns_nil hrun
  | cons p ps ih =>
    simp only [List.flatten_cons, List.length_append] at hroom
    obtain ⟨c', code, hrun, h'⟩ := h.readLoop fs hb (by omega) hm
    have happ := h'.append p (by omega)
    exact (returns_cons hrun p ps).mpr (ih happ (by omega) (happ.inv.iterations_le _))

end InBody

-- ---------------------------------------------------------------------------
-- A body that the buffer has no room for
-- ---------------------------------------------------------------------------

/-- The loop measures such a body behind every complete line. -/
theorem readLoop_measured (fs : FileSystem) {r : HttpConn × HttpCode} (hstatus : status ≠ .lineOk) (h : c.Inv)
    (hst : c.checkState = .content) (hlen : c.contentLength = n) (hn : readBufferSize < n)
    (hpend : c.pending = u) (hmax : (n : Int) + c.startLine ≤ intMax)
    (hrun : readLoop fs m c status = .ok r) : (n : Int) + c.startLine + lineBytes 0 u ≤ intMax := by
  induction m generalizing c u status with
  | zero => cases hrun
  | succ m ih =>
    have hcond : c.loopCond status = .ok (c.scanned c.startLine (front u)) := by
      rw [loopCond, if_neg (fun hc => hstatus hc.2), parseLine_spec h.toScanning, hpend]
    rw [lineBytes_front]
    cases hf : front u with
    | more l => simpa using hmax
    | bad l => simpa using hmax
    | line l rest =>
      rw [hf] at hcond
      have hd := takeLine_step h (hpend ▸ hf)
      have huns := Unscanned.ofNextLine hd.inv
      rw [hd.rest] at huns
      have hbound := huns.bound
      have hread := hd.inv.read_le
      have hchecked : ((c.takeLine l).checkedIdx : Int) = c.startLine + l.length + 2 := rfl
      have hstart : ((c.takeLine l).nextLine.startLine : Int) = c.startLine + l.length + 2 := rfl
      have hlen' : (c.takeLine l).contentLength = n := hlen
      cases hbody : (c.takeLine l).loopBody fs with
      | error f =>
        rw [(readLoop_fault hcond hbody m).2] at hrun
        cases hrun
      | ok cn =>
        -- the addition of `parse_content` was an `int`
        have hfits := (loopBody_fits hbody hst).1
        have hshort := loopBody_short fs (u := rest) ⟨hd.inv, hst, hlen, huns⟩ (by omega) (by omega)
        rw [(readLoop_next hcond hshort m).2] at hrun
        have hopen : LineStatus.lineOpen ≠ .lineOk := by rintro ⟨⟩
        have hrest := ih hopen hd.inv.nextLine hst hlen hd.rest (by omega) hrun
        show (n : Int) + c.startLine + (l.length + 2 + lineBytes 0 rest : Nat) ≤ intMax
        omega

/-- A call either scans on, or measures the body where its end is not an `int`. -/
theorem Waiting.readLoop (fs : FileSystem) (h : Waiting n c u) (hn : readBufferSize < n) (hm : u.length + 1 < m) :
    ((n : Int) + c.checkedIdx + lineBytes 0 u ≤ intMax ∧ ∃ c', readLoop fs m c .lineOk = .ok (c', .noRequest) ∧
        Waiting n c' (skim u) ∧ c'.readIdx = c.readIdx) ∨
      (intMax < (n : Int) + c.checkedIdx + lineBytes 0 u ∧ ∃ f, readLoop fs m c .lineOk = .error f) := by
  obtain ⟨k, rfl⟩ : ∃ k, m = k + 1 := ⟨m - 1, by omega⟩
  have hcond : c.loopCond .lineOk = .ok (c, .lineOk) := if_pos ⟨h.state, rfl⟩
  have hbound := h.unscanned.bound
  have hread := h.inv.read_le
  have hopen : LineStatus.lineOpen ≠ .lineOk := by rintro ⟨⟩
  have hstart : c.nextLine.startLine = c.checkedIdx := rfl
  by_cases hmax : (n : Int) + c.checkedIdx + lineBytes 0 u ≤ intMax
  · have hshort := loopBody_short fs h (by omega) (by omega)
    obtain ⟨c', hrun, hwait, hidx⟩ := readLoop_skim fs (c := c.nextLine) (k := k) (by omega) hopen
      h.inv.nextLine h.state h.length h.unscanned.pending hmax (by omega)
    exact .inl ⟨hmax, c', (readLoop_next hcond hshort k).2.trans hrun, hwait, hidx⟩
  · refine .inr ⟨by omega, ?_⟩
    cases hrun : HttpConn.readLoop fs (k + 1) c .lineOk with
    | error f => exact ⟨f, rfl⟩
    | ok r =>
      refine absurd ?_ hmax
      cases hbody : c.loopBody fs with
      | error f =>
        rw [(readLoop_fault hcond hbody k).2] at hrun
        cases hrun
      | ok cn =>
        have hfits := (loopBody_fits hbody h.state).1
        have hlen := h.length
        rw [(readLoop_next hcond (loopBody_short fs h (by omega) (by omega)) k).2] at hrun
        exact readLoop_measured fs (c := c.nextLine) hopen h.inv.nextLine h.state h.length hn
          h.unscanned.pending (by omega) hrun

theorem Waiting.returns_iff (fs : FileSystem) (h : Waiting n c u) (hn : readBufferSize < n)
    (hroom : c.readIdx + ps.flatten.length < readBufferSize) (hm : u.length + 1 < m) :
    Returns fs m c .lineOk ps ↔ (n : Int) + c.checkedIdx + reach u ps ≤ intMax := by
  induction ps generalizing c u m with
  | nil =>
    rcases h.readLoop fs hn hm with ⟨hmax, c', hrun, -⟩ | ⟨hmax, f, hrun⟩
    · exact iff_of_true (returns_nil hrun) hmax
    · exact iff_of_false (not_returns hrun) (by simp only [reach]; omega)
  | cons p ps ih =>
    rcases h.readLoop fs hn hm with ⟨hmax, c', hrun, hwait, hidx⟩ | ⟨hmax, f, hrun⟩
    · simp only [List.flatten_cons, List.length_append] at hroom
      have happ := hwait.append p (by omega)
      have hidx' : (c'.append p).readIdx = c.readIdx + p.length := congrArg (· + p.length) hidx
      have hbound := h.unscanned.bound
      have hbound' := happ.unscanned.bound
      have hle := skim_length_le u
      have hchecked : (c'.append p).checkedIdx = c.checkedIdx + (u.length - (skim u).length) := by
        simp only [List.length_append] at hbound'
        omega
      rw [returns_cons hrun, ih happ (by omega) (by simp only [readFuel]; omega), hchecked, reach]
      push_cast
      omega
    · have hreach := lineBytes_le_reach u (p :: ps)
      exact iff_of_false (not_returns hrun) (by omega)

-- ---------------------------------------------------------------------------
-- The lines before the body
-- ---------------------------------------------------------------------------

/-- A connection in state `st`, with `n` in `m_content_length`, `k` bytes handed over and `u` behind them. -/
structure HeadAt (st : CheckState) (n : Int) (u : List UInt8) (k : Nat) (c : HttpConn) : Prop where
  inv : c.Inv
  state : c.checkState = st
  length : c.contentLength = n
  pending : c.pending = u
  start : c.startLine = k

section HeadAt

variable {st : CheckState} {b : Int} {k : Nat}

theorem HeadAt.append (h : c.HeadAt st b u k) (p : List UInt8) (hle : c.readIdx + p.length ≤ readBufferSize) :
    (c.append p).HeadAt st b (u ++ p) k :=
  ⟨h.inv.append p hle, h.state, h.length,
    (pending_append (le_trans h.inv.start_le h.inv.checked_le) p).trans (by rw [h.pending]), h.start⟩

theorem HeadAt.room (h : c.HeadAt st b u k) : k + u.length = c.readIdx := by
  have hle := le_trans h.inv.start_le h.inv.checked_le
  have hlen := congrArg List.length h.pending
  have hstart := h.start
  rw [HttpConn.pending, bytes_length] at hlen
  omega

/-- The next piece arrives. -/
theorem HeadAt.arrive {p : List UInt8} (h : c.HeadAt st b u k)
    (hroom : c.readIdx + (p :: ps).flatten.length < readBufferSize) :
    (c.append p).HeadAt st b (u ++ p) k ∧ (c.append p).readIdx + ps.flatten.length < readBufferSize ∧
      (u ++ p).length + 1 < readFuel := by
  simp only [List.flatten_cons, List.length_append] at hroom
  have hidx : (c.append p).readIdx = c.readIdx + p.length := rfl
  have happ := h.append p (by omega)
  have hlen := happ.room
  exact ⟨happ, by omega, by simp only [readFuel]; omega⟩

/-- Without a complete line the call ends where it began. -/
theorem HeadAt.wait (fs : FileSystem) (h : c.HeadAt st b u k) (hst : st ≠ .content)
    (hf : ∀ l rest, front u ≠ .line l rest) (m : Nat) (status : LineStatus) :
    ∃ c', readLoop fs (m + 1) c status = .ok (c', .noRequest) ∧ c'.HeadAt st b u k ∧ c'.readIdx = c.readIdx := by
  have hscan : ∃ l, front c.pending = .more l ∨ front c.pending = .bad l := by
    rw [h.pending]
    cases hfr : front u with
    | more l => exact ⟨l, .inl rfl⟩
    | bad l => exact ⟨l, .inr rfl⟩
    | line l rest => exact absurd hfr (hf l rest)
  obtain ⟨l, hscan⟩ := hscan
  obtain ⟨-, hrun, hinv⟩ := readLoop_scan fs h.inv (h.state ▸ hst) hscan m status
  exact ⟨_, hrun, ⟨hinv, h.state, h.length, h.pending, h.start⟩, rfl⟩

variable (hf : front u = .line l rest)

include hf

theorem HeadAt.requestLine (fs : FileSystem) (h : c.HeadAt .requestLine b u k) :
    ∃ c', (c.takeLine l).loopBody fs =
        .ok (c', if (requestTarget (cstr l)).isSome then .again .lineOk else .ret .badRequest) ∧
      c'.HeadAt (if (requestTarget (cstr l)).isSome then .header else .requestLine) b rest (k + (l.length + 2)) ∧
      c'.readIdx = c.readIdx := by
  have hd := takeLine_step h.inv (h.pending ▸ hf)
  obtain ⟨c', hc', hbody, hinv, hidx, hpend, hhead⟩ := loopBody_request fs hd h.state
  obtain ⟨-, hstep⟩ := requestLineStep_text (c := (c.takeLine l).nextLine) hd.line.text
  rw [← hc'] at hstep
  refine ⟨c', hbody, ⟨hinv, ?_, ?_, hpend, ?_⟩, hidx⟩
  · cases ht : requestTarget (cstr l) with
    | none => exact (hstep.reject ht).trans h.state
    | some t => exact hhead (by rw [ht]; rfl)
  · rw [hstep.same]
    exact h.length
  · rw [hstep.same, ← h.start]
    rfl

theorem HeadAt.headerLine (fs : FileSystem) (h : c.HeadAt .header b u k) (hl : cstr l ≠ []) :
    ∃ c', (c.takeLine l).loopBody fs = .ok (c', .again .lineOk) ∧
      c'.HeadAt .header (lengthAfter b l) rest (k + (l.length + 2)) ∧ c'.readIdx = c.readIdx := by
  have hd := takeLine_step h.inv (h.pending ▸ hf)
  obtain ⟨c', hc', hbody, hinv, hidx, hpend, hhead⟩ := loopBody_header fs hd h.state hl
  refine ⟨c', hbody, ⟨hinv, hhead, ?_, hpend, ?_⟩, hidx⟩
  · rw [hc', headerStep_length, ← h.length]
    rfl
  · rw [hc', headerStep_same hl, ← h.start]
    rfl

/-- The blank line is answered, or the body begins behind it. -/
theorem HeadAt.blankLine (fs : FileSystem) (h : c.HeadAt .header b u k) (hl : cstr l = []) :
    ∃ c' next, (c.takeLine l).loopBody fs = .ok (c', next) ∧ c'.readIdx = c.readIdx ∧
      ((b = 0 ∧ (∃ code, next = .ret code) ∧ c'.HeadAt .header b rest (k + (l.length + 2))) ∨
        (b ≠ 0 ∧ next = .again .lineOk ∧ c'.HeadAt .content b rest (k + (l.length + 2)) ∧
          c'.checkedIdx = k + (l.length + 2))) := by
  have hd := takeLine_step h.inv (h.pending ▸ hf)
  have hds : (c.takeLine l).checkState = .header := h.state
  have hstart : (c.takeLine l).nextLine.startLine = k + (l.length + 2) := by
    rw [← h.start]
    rfl
  obtain ⟨c', next, hrun, hstep, hnext⟩ := onHeader_blank fs hd.inv.nextLine hds hd.line hl
  refine ⟨c', next, by simp only [loopBody, hds, hrun], hstep.readIdx.trans hd.readIdx, ?_⟩
  rcases hnext with ⟨hzero, code, rfl, -, hreq⟩ | ⟨hne, rfl, rfl⟩
  · obtain ⟨rf, s, a, hsame⟩ := doRequest_same fs _ hreq
    have hsame : c' = { (c.takeLine l).nextLine with realFile := rf, fileStat := s, fileAddress := a } := hsame
    refine .inl ⟨h.length.symm.trans hzero, ⟨code, rfl⟩, hstep.inv, ?_, ?_, ?_, ?_⟩
    · rw [hsame]
      exact h.state
    · rw [hsame]
      exact h.length
    · rw [hsame]
      exact hd.rest
    · rw [hsame]
      exact hstart
  · exact .inr ⟨fun h0 => hne (h.length.trans h0), rfl, ⟨hstep.inv, rfl, h.length, hd.rest, hstart⟩, hstart⟩

omit hf

/-- A body of declared length is measured and stored to inside the buffer exactly if it fits. -/
theorem HeadAt.body_returns_iff (fs : FileSystem) (h : c.HeadAt .content b u k) (hchecked : c.checkedIdx = k)
    (hroom : c.readIdx + ps.flatten.length < readBufferSize) (hm : u.length + 1 < m) :
    Returns fs m c .lineOk ps ↔ LengthFits k b u ps := by
  have hlen := h.room
  have hreach := reach_le u ps
  by_cases hlow : -(k : Int) ≤ b
  · by_cases hbig : b ≤ readBufferSize
    · refine iff_of_true (InBody.returns fs (b := b) ⟨h.inv, h.state, h.length, rfl, ?_⟩ hbig hroom ?_) ⟨hlow, ?_⟩
      · rw [h.start]
        exact hlow
      · rw [iterations, if_pos ⟨h.state, rfl⟩]
        omega
      · simp only [readBufferSize, intMax] at *
        omega
    · obtain ⟨n, rfl⟩ : ∃ n : Nat, b = n := ⟨b.toNat, by omega⟩
      have huns := Unscanned.ofNextLine h.inv
      have hpend : c.nextLine.pending = u := by
        rw [← h.pending, HttpConn.pending, HttpConn.pending, h.start]
        simp only [nextLine, hchecked]
      rw [hpend] at huns
      rw [Waiting.returns_iff fs (n := n) ⟨h.inv, h.state, h.length, huns⟩ (by omega) hroom hm, hchecked]
      exact ⟨fun hmax => ⟨hlow, hmax⟩, fun hfits => hfits.high⟩
  · refine iff_of_false ?_ fun hfits => hlow hfits.low
    obtain ⟨j, rfl⟩ : ∃ j, m = j + 1 := ⟨m - 1, by omega⟩
    have hcond : c.loopCond .lineOk = .ok (c, .lineOk) := if_pos ⟨h.state, rfl⟩
    cases hbody : c.loopBody fs with
    | error f => exact not_returns (readLoop_fault hcond hbody j).2
    | ok cn =>
      obtain ⟨-, hstore⟩ := loopBody_fits hbody h.state
      rw [h.length, h.start] at hstore
      exact absurd (hstore (by omega)).1 hlow

end HeadAt

section Opens

variable {st : CheckState} {b : Int} {k : Nat}

/-- Where a body is opened, the declared length decides. The induction is on the lines and
    the pieces before the body. -/
theorem opens_returns_iff (fs : FileSystem) {ls : List (CheckState × List UInt8)} {body : List UInt8}
    {later : List (List UInt8)} (ho : OpensBody st b u ps ls body later) (hst : st ≠ .content)
    (h : c.HeadAt st b u k) (hroom : c.readIdx + ps.flatten.length < readBufferSize) (hm : u.length + 1 < m) :
    Returns fs m c status ps ↔ LengthFits (k + headBytes ls) (declaredLength b ls) body later := by
  induction ho generalizing c k m status with
  | wait hf _ ih =>
    obtain ⟨j, rfl⟩ : ∃ j, m = j + 1 := ⟨m - 1, by omega⟩
    obtain ⟨c', hrun, h', hidx⟩ := h.wait fs hst hf j status
    obtain ⟨happ, hroom', hm'⟩ := h'.arrive (hidx ▸ hroom)
    rw [returns_cons hrun, ih hst happ hroom' hm']
  | refused hf ht _ ih =>
    obtain ⟨j, rfl⟩ : ∃ j, m = j + 1 := ⟨m - 1, by omega⟩
    obtain ⟨c', hbody, h', hidx⟩ := h.requestLine hf fs
    rw [ht] at hbody h'
    have hcond := loopCond_line h.inv (h.state ▸ hst) (h.pending ▸ hf) status
    obtain ⟨happ, hroom', hm'⟩ := h'.arrive (hidx ▸ hroom)
    rw [returns_cons (readLoop_ret hcond hbody j).2, ih hst happ hroom' hm', headBytes_cons,
      declaredLength_request, Nat.add_assoc]
  | request hf ht _ ih =>
    obtain ⟨j, rfl⟩ : ∃ j, m = j + 1 := ⟨m - 1, by omega⟩
    obtain ⟨c', hbody, h', hidx⟩ := h.requestLine hf fs
    rw [ht] at hbody h'
    have hcond := loopCond_line h.inv (h.state ▸ hst) (h.pending ▸ hf) status
    have hlt := Frames.front_line_length hf
    rw [returns_next (readLoop_next hcond hbody j).2, ih (by decide) h' (hidx ▸ hroom) (by omega), headBytes_cons,
      declaredLength_request, Nat.add_assoc]
  | header hf hl _ ih =>
    obtain ⟨j, rfl⟩ : ∃ j, m = j + 1 := ⟨m - 1, by omega⟩
    obtain ⟨c', hbody, h', hidx⟩ := h.headerLine hf fs hl
    have hcond := loopCond_line h.inv (h.state ▸ hst) (h.pending ▸ hf) status
    have hlt := Frames.front_line_length hf
    rw [returns_next (readLoop_next hcond hbody j).2, ih hst h' (hidx ▸ hroom) (by omega), headBytes_cons,
      declaredLength_header, Nat.add_assoc]
  | answered hf hl hn _ ih =>
    obtain ⟨j, rfl⟩ : ∃ j, m = j + 1 := ⟨m - 1, by omega⟩
    obtain ⟨c', next, hbody, hidx, ⟨-, ⟨code, rfl⟩, h'⟩ | ⟨hne, -⟩⟩ := h.blankLine hf fs hl
    · have hcond := loopCond_line h.inv (h.state ▸ hst) (h.pending ▸ hf) status
      obtain ⟨happ, hroom', hm'⟩ := h'.arrive (hidx ▸ hroom)
      rw [returns_cons (readLoop_ret hcond hbody j).2, ih hst happ hroom' hm', headBytes_cons,
        declaredLength_header, lengthAfter_blank hl, Nat.add_assoc]
    · exact absurd hn hne
  | blank hf hl hn =>
    obtain ⟨j, rfl⟩ : ∃ j, m = j + 1 := ⟨m - 1, by omega⟩
    obtain ⟨c', next, hbody, hidx, ⟨hzero, -⟩ | ⟨-, rfl, h', hchecked⟩⟩ := h.blankLine hf fs hl
    · exact absurd hzero hn
    · have hcond := loopCond_line h.inv (h.state ▸ hst) (h.pending ▸ hf) status
      have hlt := Frames.front_line_length hf
      rw [returns_next (readLoop_next hcond hbody j).2,
        h'.body_returns_iff fs hchecked (hidx ▸ hroom) (by omega), headBytes_cons, declaredLength_header,
        lengthAfter_blank hl]
      rfl

/-- Without a body nothing can fail. The induction is on the bytes and the pieces that are left. -/
theorem opens_or_returns (fs : FileSystem) (hst : st ≠ .content) (h : c.HeadAt st b u k)
    (hroom : c.readIdx + ps.flatten.length < readBufferSize) (hm : u.length + 1 < m) :
    (∃ ls body later, OpensBody st b u ps ls body later) ∨ Returns fs m c status ps := by
  induction hleft : u.length + ps.flatten.length + ps.length using Nat.strong_induction_on
    generalizing st b u k c m status ps with
  | _ left ih =>
    subst hleft
    obtain ⟨j, rfl⟩ : ∃ j, m = j + 1 := ⟨m - 1, by omega⟩
    -- a call that ends waits for the next piece
    have hended : ∀ {c' st' u' k' code}, st' ≠ .content → readLoop fs (j + 1) c status = .ok (c', code) →
        c'.HeadAt st' b u' k' → c'.readIdx = c.readIdx → u'.length ≤ u.length →
        (∀ {p qs ls body later}, OpensBody st' b (u' ++ p) qs ls body later →
          ∃ ls', OpensBody st b u (p :: qs) ls' body later) →
        (∃ ls body later, OpensBody st b u ps ls body later) ∨ Returns fs (j + 1) c status ps := by
      intro c' st' u' k' code hst' hrun h' hidx hle hopens
      cases ps with
      | nil => exact .inr (returns_nil hrun)
      | cons p qs =>
        obtain ⟨happ, hroom', hm'⟩ := h'.arrive (hidx ▸ hroom)
        have hlt : (u' ++ p).length + qs.flatten.length + qs.length <
            u.length + (p :: qs).flatten.length + (p :: qs).length := by
          simp only [List.flatten_cons, List.length_append, List.length_cons]
          omega
        rcases ih _ hlt hst' happ hroom' hm' rfl with ⟨ls, body, later, ho⟩ | hret
        · obtain ⟨ls', ho'⟩ := hopens ho
          exact .inl ⟨ls', body, later, ho'⟩
        · exact .inr ((returns_cons hrun p qs).mpr hret)
    by_cases hwait : ∀ l rest, front u ≠ .line l rest
    · obtain ⟨c', hrun, h', hidx⟩ := h.wait fs hst hwait j status
      exact hended hst hrun h' hidx le_rfl fun ho => ⟨_, .wait hwait ho⟩
    simp only [not_forall, not_not] at hwait
    obtain ⟨l, rest, hf⟩ := hwait
    have hlt := Frames.front_line_length hf
    have hcond := loopCond_line h.inv (h.state ▸ hst) (h.pending ▸ hf) status
    have hfuel : rest.length + 1 < j := by omega
    have hless : rest.length + ps.flatten.length + ps.length < u.length + ps.flatten.length + ps.length := by omega
    cases st with
    | content => exact absurd rfl hst
    | requestLine =>
      obtain ⟨c', hbody, h', hidx⟩ := h.requestLine hf fs
      cases ht : requestTarget (cstr l) with
      | none =>
        rw [ht] at hbody h'
        exact hended (by decide) (readLoop_ret hcond hbody j).2 h' hidx hlt.le fun ho =>
          ⟨_, .refused hf ht ho⟩
      | some t =>
        rw [ht] at hbody h'
        have h' : c'.HeadAt .header b rest (k + (l.length + 2)) := h'
        rcases ih _ hless (by decide) h' (hidx ▸ hroom) hfuel rfl with ⟨ls, body, later, ho⟩ | hret
        · exact .inl ⟨_, _, _, .request hf ht ho⟩
        · exact .inr ((returns_next (readLoop_next hcond hbody j).2 ps).mpr hret)
    | header =>
      by_cases hl : cstr l = []
      · obtain ⟨c', next, hbody, hidx, ⟨hn, ⟨code, rfl⟩, h'⟩ | ⟨hn, -⟩⟩ := h.blankLine hf fs hl
        · exact hended hst (readLoop_ret hcond hbody j).2 h' hidx hlt.le fun ho =>
            ⟨_, .answered hf hl hn ho⟩
        · exact .inl ⟨_, _, _, .blank hf hl hn⟩
      · obtain ⟨c', hbody, h', hidx⟩ := h.headerLine hf fs hl
        rcases ih _ hless hst h' (hidx ▸ hroom) hfuel rfl with ⟨ls, body, later, ho⟩ | hret
        · exact .inl ⟨_, _, _, .header hf hl ho⟩
        · exact .inr ((returns_next (readLoop_next hcond hbody j).2 ps).mpr hret)

end Opens

-- ---------------------------------------------------------------------------
-- Safety on the bytes
-- ---------------------------------------------------------------------------

/-- A run of deliveries to a fresh connection is safe exactly when the length that is declared for a
    body fits. Which lines come before the body, and what they declare, is read off the bytes. -/
theorem feed_safe_iff (fs : FileSystem) (c : HttpConn) (ds : List (List Recv)) :
    SafeRun fs c.init ds ↔ ∀ ls body later, OpensBody .requestLine 0 [] (pieces 0 ds) ls body later →
      LengthFits (headBytes ls) (declaredLength 0 ls) body later := by
  have hfeed : (∃ r, feed fs c.init ds = .ok r) ↔ ∃ r, feedPieces fs c.init (pieces 0 ds) = .ok r :=
    feed_pieces fs (init_inv c)
  have hsafe : SafeRun fs c.init ds ↔ ∃ r, feed fs c.init ds = .ok r :=
    ⟨fun h => h.1, fun ⟨r, hr⟩ => feed_safe (init_inv c) (feed_fits hr)⟩
  have hhead : c.init.HeadAt .requestLine 0 [] 0 := ⟨init_inv c, rfl, rfl, rfl, rfl⟩
  have hst : CheckState.requestLine ≠ .content := by decide
  have hrun : Returns fs 2 c.init .lineOk (pieces 0 ds) ↔ ∃ r, feedPieces fs c.init (pieces 0 ds) = .ok r := by
    rw [Returns, (init_waits fs c).readLoop (init_inv c) hst Nat.two_pos]
    rfl
  have hroom : c.init.readIdx + (pieces 0 ds).flatten.length < readBufferSize := by
    by_cases hnil : pieces 0 ds = []
    · rw [hnil]
      exact Nat.zero_lt_succ _
    · exact pieces_length 0 ds hnil
  have hfuel : ([] : List UInt8).length + 1 < 2 := by decide
  rw [hsafe, hfeed, ← hrun]
  constructor
  · intro hret ls body later ho
    have hfits := (opens_returns_iff fs ho hst hhead hroom hfuel).mp hret
    rwa [Nat.zero_add] at hfits
  · intro hfits
    rcases opens_or_returns fs hst hhead hroom hfuel with ⟨ls, body, later, ho⟩ | hret
    · refine (opens_returns_iff fs ho hst hhead hroom hfuel).mpr ?_
      rw [Nat.zero_add]
      exact hfits ls body later ho
    · exact hret

/-- A NUL byte after `Content-Length` opens the way to a negative length, and the
    store goes to index 39 - 500. -/
theorem negative_length_unsafe :
    ¬ SafeRun ⟨fun _ => none, fun _ _ => -1⟩ blank.init
      [[.data (ascii "GET / HTTP/1.1\r\nContent-Length\x00-500\r\n\r\n")]] := by
  rintro ⟨⟨c', hok⟩, -⟩
  have hfault : (match feed ⟨fun _ => none, fun _ _ => -1⟩ blank.init
      [[.data (ascii "GET / HTTP/1.1\r\nContent-Length\x00-500\r\n\r\n")]] with
      | .ok _ => none
      | .error f => some f) = some (.outOfBounds (-461)) := by
    decide +kernel
  rw [hok] at hfault
  cases hfault

end HttpConn

end Http
