-- SUMMARY: Waiting for the body of a request: when process_read takes it for complete, and the exact condition under which that is when it is.
import LinuxLearning.HttpConn.Chunks

/-!
# The body of a request

An incomplete body goes to the line scanner, which passes over its complete lines and
the plain bytes behind them. The next call measures the body from where the scanner
stopped. `skim` is what the scanner leaves of the bytes it is given, and it does not
matter in how many calls it is given them.
-/

namespace Http

open Memory CString

/-- What the line scanner leaves of the bytes `u`: it passes over plain bytes and
    complete line ends. -/
def skim : List UInt8 → List UInt8
  | [] => []
  | [b] => if isPlain b then [] else [b]
  | b :: b' :: u =>
    if isPlain b then skim (b' :: u)
    else if b = cr ∧ b' = lf then skim u
    else b :: b' :: u

theorem skim_plain {b : UInt8} (hb : isPlain b) (u : List UInt8) : skim (b :: u) = skim u := by
  cases u <;> simp [skim, hb]

theorem skim_append_plain {l : List UInt8} (hl : ∀ b ∈ l, isPlain b) (u : List UInt8) :
    skim (l ++ u) = skim u := by
  induction l with
  | nil => rfl
  | cons b l ih =>
    rw [List.forall_mem_cons] at hl
    rw [List.cons_append, skim_plain hl.1, ih hl.2]

theorem skim_crlf (u : List UInt8) : skim (cr :: lf :: u) = skim u := by
  simp [skim, isPlain]

/-- Scanning goes on where it stopped. -/
theorem skim_resume (u p : List UInt8) : skim (skim u ++ p) = skim (u ++ p) := by
  fun_induction skim u with
  | case1 => rfl
  | case2 b hb => simp [skim_plain hb]
  | case3 b hb => rfl
  | case4 b b' u hb ih => rw [ih, List.cons_append, List.cons_append, skim_plain hb, List.cons_append]
  | case5 b b' u hb hcr ih =>
    obtain ⟨rfl, rfl⟩ := hcr
    rw [ih, List.cons_append, List.cons_append, skim_crlf]
  | case6 b b' u hb hcr => rfl

/-- A scan of the front leaves what follows its plain bytes. -/
theorem skim_front (u : List UInt8) : skim u = match front u with
    | .line _ rest => skim rest
    | .more l => u.drop l.length
    | .bad l => u.drop l.length := by
  have hdrop : u.drop (u.takeWhile isPlain).length = u.dropWhile isPlain := by
    have hsplit := congrArg (List.drop (u.takeWhile isPlain).length)
      (List.takeWhile_append_dropWhile (p := isPlain) (l := u))
    rw [List.drop_left] at hsplit
    exact hsplit.symm
  have hskim : skim u = skim (u.dropWhile isPlain) := by
    have happ := skim_append_plain (l := u.takeWhile isPlain) (fun b hb => List.mem_takeWhile_imp hb)
      (u.dropWhile isPlain)
    rwa [List.takeWhile_append_dropWhile] at happ
  rcases takeWhile_split isPlain u with ⟨-, hd⟩ | ⟨b, r, -, hd, hb⟩
  · rw [hskim, hd]
    simp only [front, hd]
    rw [hdrop, hd]
    rfl
  · cases r with
    | nil =>
      have hf : front u = .more (u.takeWhile isPlain) ∨ front u = .bad (u.takeWhile isPlain) := by
        simp only [front, hd]
        split
        · exact .inl rfl
        · exact .inr rfl
      rw [hskim, hd]
      rcases hf with hf | hf <;> rw [hf] <;> simp [hdrop, hd, skim, hb]
    | cons b' r =>
      by_cases hcr : b = cr ∧ b' = lf
      · obtain ⟨rfl, rfl⟩ := hcr
        rw [hskim, hd, skim_crlf]
        simp [front, hd]
      · have hf : front u = .bad (u.takeWhile isPlain) := by simp [front, hd, hcr]
        rw [hskim, hd, hf]
        simp [hdrop, hd, skim, hb, hcr]

theorem skim_length_le (u : List UInt8) : (skim u).length ≤ u.length := by
  fun_induction skim u with
  | case1 => exact le_refl _
  | case2 b hb => exact Nat.zero_le _
  | case3 b hb => exact le_refl _
  | case4 b b' u hb ih => exact le_trans ih (Nat.le_succ _)
  | case5 b b' u hb hcr ih => exact le_trans ih (Nat.le_add_right _ 2)
  | case6 b b' u hb hcr => exact le_refl _

/-- How many bytes of `u` the complete lines at its front make up, with `k` plain bytes before `u`. -/
def lineBytes (k : Nat) : List UInt8 → Nat
  | [] => 0
  | [_] => 0
  | b :: b' :: u =>
    if isPlain b then lineBytes (k + 1) (b' :: u)
    else if b = cr ∧ b' = lf then k + 2 + lineBytes 0 u
    else 0

theorem lineBytes_plain {l : List UInt8} (hl : ∀ b ∈ l, isPlain b) (k : Nat) (u : List UInt8) :
    lineBytes k (l ++ u) = lineBytes (k + l.length) u := by
  induction l generalizing k with
  | nil => rfl
  | cons b l ih =>
    rw [List.forall_mem_cons] at hl
    have hb : lineBytes k (b :: (l ++ u)) = lineBytes (k + 1) (l ++ u) := by
      cases l ++ u with
      | nil => rfl
      | cons b' v => rw [lineBytes, if_pos hl.1]
    rw [List.cons_append, hb, ih hl.2, List.length_cons, Nat.add_assoc, Nat.add_comm 1]

theorem lineBytes_front (u : List UInt8) : lineBytes 0 u = match front u with
    | .line l rest => l.length + 2 + lineBytes 0 rest
    | _ => 0 := by
  have hplain : ∀ b ∈ u.takeWhile isPlain, isPlain b := fun b hb => List.mem_takeWhile_imp hb
  have hsplit := lineBytes_plain hplain 0 (u.dropWhile isPlain)
  rw [List.takeWhile_append_dropWhile, Nat.zero_add] at hsplit
  rw [hsplit]
  rcases takeWhile_split isPlain u with ⟨-, hd⟩ | ⟨b, r, -, hd, hb⟩
  · simp [front, hd, lineBytes]
  · cases r with
    | nil =>
      by_cases hcr : b = cr
      · simp [front, hd, lineBytes, hcr]
      · simp [front, hd, lineBytes, hcr]
    | cons b' r =>
      by_cases hcr : b = cr ∧ b' = lf
      · obtain ⟨rfl, rfl⟩ := hcr
        simp [front, hd, lineBytes, isPlain]
      · simp [front, hd, lineBytes, hb, hcr]

/-- The lines are scanned. -/
theorem lineBytes_skim (u : List UInt8) : lineBytes 0 u + (skim u).length ≤ u.length := by
  induction hn : u.length using Nat.strong_induction_on generalizing u with
  | _ n ih =>
    subst hn
    rw [lineBytes_front]
    cases hf : front u with
    | more l => simpa using skim_length_le u
    | bad l => simpa using skim_length_le u
    | line l rest =>
      have hlen := congrArg List.length (front_line hf)
      simp only [List.length_append, List.length_cons] at hlen
      have hrest := ih rest.length (by omega) rest rfl
      have hskim : skim u = skim rest := by rw [skim_front, hf]
      rw [hskim]
      show l.length + 2 + lineBytes 0 rest + (skim rest).length ≤ u.length
      omega

namespace HttpConn

variable {fs : FileSystem} {c c' d : HttpConn} {u w : List UInt8} {n : Nat}

/-! ## One call -/

/-- The bytes behind `m_checked_idx` are `u`. -/
structure Unscanned (c : HttpConn) (u : List UInt8) : Prop where
  bound : c.checkedIdx + u.length = c.readIdx
  get : bytes c.readBuf c.checkedIdx u.length = u

/-- A connection that waits for a body of `n` bytes, with `u` not scanned yet. -/
structure Waiting (n : Nat) (c : HttpConn) (u : List UInt8) : Prop where
  inv : c.Inv
  state : c.checkState = .content
  length : c.contentLength = n
  unscanned : c.Unscanned u

theorem Unscanned.pending (h : c.Unscanned u) : c.nextLine.pending = u := by
  have := h.bound
  rw [HttpConn.pending]
  simp only [nextLine]
  rw [show c.readIdx - c.checkedIdx = u.length by omega]
  exact h.get

theorem Unscanned.ofNextLine (h : c.Inv) : c.Unscanned c.nextLine.pending := by
  have := h.checked_le
  refine ⟨?_, ?_⟩
  · rw [HttpConn.pending, bytes_length]
    simp only [nextLine]
    omega
  · rw [HttpConn.pending, bytes_length]
    rfl

/-- `parse_content` on a body of which less than `n` bytes are unscanned. -/
theorem loopBody_short (fs : FileSystem) (h : c.Waiting n u) (hmax : (n : Int) + c.checkedIdx ≤ intMax)
    (hlt : u.length < n) : c.loopBody fs = .ok (c.nextLine, .again .lineOpen) := by
  have hb := h.unscanned.bound
  have hadd : addInt c.contentLength c.checkedIdx = .ok (c.contentLength + c.checkedIdx) := by
    rw [h.length]
    exact if_pos ⟨by simp only [intMin]; omega, hmax⟩
  have hstop : ¬ c.contentLength + c.checkedIdx ≤ c.readIdx := by
    rw [h.length]
    omega
  have hcont : c.nextLine.parseContent c.startLine = .ok (c.nextLine, .noRequest) := by
    rw [parseContent, show addInt c.nextLine.contentLength c.nextLine.checkedIdx = _ from hadd, ok_bind,
      if_neg (show ¬ c.contentLength + c.checkedIdx ≤ c.nextLine.readIdx from hstop)]
    rfl
  simp only [loopBody, h.state, onContent, hcont, ok_bind]
  rfl

/-- On a body that is not complete the loop scans on. The induction is on the bytes
    that are left: a line takes an iteration and at least two of them. -/
theorem readLoop_skim (fs : FileSystem) {k : Nat} {status : LineStatus} (hk : u.length < k)
    (hstatus : status ≠ .lineOk) (h : c.Inv) (hst : c.checkState = .content)
    (hlen : c.contentLength = n) (hpend : c.pending = u)
    (hmax : (n : Int) + c.startLine + lineBytes 0 u ≤ intMax) (hlt : u.length < n) :
    ∃ c', readLoop fs k c status = .ok (c', .noRequest) ∧ Waiting n c' (skim u) ∧
      c'.readIdx = c.readIdx := by
  induction k generalizing c u status with
  | zero => omega
  | succ k ih =>
    have hcond : c.loopCond status = .ok (c.scanned c.startLine (front u)) := by
      rw [loopCond, if_neg (fun hc => hstatus hc.2), parseLine_spec h.toScanning, hpend]
    have hstop : ∀ {l st}, (front u).text = l → st ≠ .lineOk →
        c.loopCond status = .ok ({ c with checkedIdx := c.startLine + l.length }, st) →
        skim u = u.drop l.length →
        ∃ c', readLoop fs (k + 1) c status = .ok (c', .noRequest) ∧ Waiting n c' (skim u) ∧
          c'.readIdx = c.readIdx := by
      intro l st hl hne hc hskim
      have hinv := advance_inv (c := c) (l := l) h (by rw [hpend]; exact hl)
      have huns := Unscanned.ofNextLine hinv
      obtain ⟨r, hr⟩ := front_text_prefix u
      rw [hl] at hr
      have hrest := bytes_drop (hpend.trans hr.symm : bytes c.readBuf c.startLine _ = l ++ r)
      rw [Nat.sub_sub] at hrest
      rw [show ({ c with checkedIdx := c.startLine + l.length } : HttpConn).nextLine.pending = r from hrest,
        show r = skim u by rw [hskim, ← hr, List.drop_left]] at huns
      exact ⟨_, (readLoop_stop fs hc hne k).2, ⟨hinv, hst, hlen, huns⟩, rfl⟩
    have hskim := skim_front u
    cases hf : front u with
    | more l =>
      rw [hf] at hcond hskim hstop
      exact hstop rfl (by decide) hcond hskim
    | bad l =>
      rw [hf] at hcond hskim hstop
      exact hstop rfl (by decide) hcond hskim
    | line l rest =>
      rw [hf] at hcond hskim
      have hd := takeLine_step h (hpend ▸ hf)
      have hshort := Frames.front_line_length hf
      have huns := Unscanned.ofNextLine hd.inv
      rw [hd.rest] at huns
      have hwaits : Waiting n (c.takeLine l) rest := ⟨hd.inv, hst, hlen, huns⟩
      have hchecked : ((c.takeLine l).checkedIdx : Int) = c.startLine + l.length + 2 := rfl
      have hbytes : lineBytes 0 u = l.length + 2 + lineBytes 0 rest := by rw [lineBytes_front, hf]
      have hbody := loopBody_short fs hwaits (by omega) (by omega)
      have hopen : LineStatus.lineOpen ≠ .lineOk := by rintro ⟨⟩
      have hstart : ((c.takeLine l).nextLine.startLine : Int) = c.startLine + l.length + 2 := rfl
      obtain ⟨c', hrun, hwait, hrd⟩ := ih (c := (c.takeLine l).nextLine) (by omega) hopen hd.inv.nextLine
        hst hlen hd.rest (by omega) (by omega)
      exact ⟨c', (readLoop_next hcond hbody k).2.trans hrun, hskim ▸ hwait, hrd.trans hd.readIdx⟩

/-- A call that finds less than `n` bytes behind `m_checked_idx` asks for more. -/
theorem processRead_short (fs : FileSystem) (h : Waiting n c u) (hn : n ≤ readBufferSize)
    (hlt : u.length < n) :
    ∃ c', c.processRead fs = .ok (c', .noRequest) ∧ Waiting n c' (skim u) ∧ c'.readIdx = c.readIdx := by
  have hcond : c.loopCond .lineOk = .ok (c, .lineOk) := if_pos ⟨h.state, rfl⟩
  have hopen : LineStatus.lineOpen ≠ .lineOk := nofun
  have hskim := lineBytes_skim u
  have hbound := h.unscanned.bound
  have hread := h.inv.read_le
  have hstart : c.nextLine.startLine = c.checkedIdx := rfl
  have hmax : (n : Int) + c.nextLine.startLine + lineBytes 0 u ≤ intMax := by
    simp only [readBufferSize, intMax] at *
    omega
  obtain ⟨c', hrun, hwait, hrd⟩ := readLoop_skim fs (c := c.nextLine) (k := readBufferSize + 1)
    (by omega) hopen h.inv.nextLine h.state h.length h.unscanned.pending hmax hlt
  exact ⟨c', (readLoop_next hcond (loopBody_short fs h (by omega) hlt) _).2.trans hrun, hwait, hrd⟩

/-- A call that finds `n` bytes there takes the body for complete. -/
theorem processRead_long (fs : FileSystem) (h : Waiting n c u) (hrd : c.readIdx < readBufferSize)
    (hle : n ≤ u.length) :
    ∃ (d c' : HttpConn) (code : HttpCode), d.doRequest fs = .ok (c', code) ∧ code ≠ .noRequest ∧
      c.processRead fs = .ok (c', code) := by
  have hb := h.unscanned.bound
  have hstart := h.inv.start_le
  have hlen := h.length
  simp only [readBufferSize] at hrd
  have hcond : c.loopCond .lineOk = .ok (c, .lineOk) := if_pos ⟨h.state, rfl⟩
  obtain ⟨d, hrun, hstep, hsame⟩ := parseContent_ok (c := c.nextLine) (t := c.startLine) h.inv.nextLine hstart
    (by simp only [nextLine, hlen, intMax]; omega)
    (by intro _; simp only [nextLine, hlen, readBufferSize]; omega)
  rw [if_pos (by simp only [nextLine, hlen]; omega)] at hrun
  obtain ⟨c', code, hreq, hcode, -⟩ := doRequest_ok fs hstep.inv
    (by rw [hsame]; exact fun hst => absurd (h.state.symm.trans hst) (by decide))
  have hbody : c.loopBody fs = .ok (c', .ret code) := by
    simp [loopBody, h.state, onContent, hrun, hreq]
  exact ⟨d, c', code, hreq, hcode, (readLoop_ret hcond hbody _).2⟩

/-! ## A run of calls -/

/-- What the calls for the pieces `qs` leave unscanned, if `u` was before. The bytes of
    the first piece are scanned in the call that gets them. -/
def leftover (u : List UInt8) (qs : List (List UInt8)) : List UInt8 :=
  if qs = [] then u else skim (u ++ qs.flatten)

theorem Waiting.append (h : Waiting n c u) (p : List UInt8) (hle : c.readIdx + p.length ≤ readBufferSize) :
    Waiting n (c.append p) (u ++ p) := by
  have hb := h.unscanned.bound
  refine ⟨h.inv.append p hle, h.state, h.length, ?_, ?_⟩
  · simp only [HttpConn.append, List.length_append]
    omega
  · have hpend := pending_append (c := c.nextLine) h.inv.checked_le p
    rw [h.unscanned.pending] at hpend
    rw [← hpend, HttpConn.pending, bytes_length]
    rfl

/-- Pieces delivered after others. -/
theorem serve_append (c : HttpConn) (ps qs : List (List UInt8)) :
    serve fs c (ps ++ qs) = match serve fs c ps with
      | .ok (c', .noRequest) => serve fs c' qs
      | r => r := by
  induction ps generalizing c with
  | nil => rfl
  | cons p ps ih =>
    rw [List.cons_append, serve, serve]
    split
    · rfl
    · rename_i d _
      cases d.processRead fs with
      | error f => rfl
      | ok r =>
        obtain ⟨e, code⟩ := r
        by_cases hcode : code = .noRequest
        · simp only [hcode, if_true, ok_bind, ih]
        · simp only [if_neg hcode, ok_bind, pure_eq_ok]
          cases code <;> first | rfl | exact absurd rfl hcode

theorem serve_piece (fs : FileSystem) {p : List UInt8} (hp : p ≠ [])
    (hlen : c.readIdx + p.length < readBufferSize) :
    serve fs c [p] = (c.append p).processRead fs := by
  rw [serve, read_data hp hlen]
  dsimp only
  cases (c.append p).processRead fs with
  | error f => rfl
  | ok r =>
    obtain ⟨e, code⟩ := r
    by_cases hcode : code = .noRequest <;> simp [hcode, serve]

/-- While less than the body has arrived, every call asks for more. -/
theorem serve_waits (fs : FileSystem) {qs : List (List UInt8)} (h : Waiting n c u)
    (hn : n ≤ readBufferSize) (hqs : ∀ q ∈ qs, q ≠ [])
    (hlen : c.readIdx + qs.flatten.length < readBufferSize) (hlt : u.length + qs.flatten.length < n) :
    ∃ c', serve fs c qs = .ok (c', .noRequest) ∧ Waiting n c' (leftover u qs) ∧
      c'.readIdx = c.readIdx + qs.flatten.length := by
  induction qs generalizing c u with
  | nil => exact ⟨c, rfl, h, rfl⟩
  | cons q qs ih =>
    rw [List.forall_mem_cons] at hqs
    simp only [List.flatten_cons, List.length_append] at hlen hlt
    have happ := h.append q (by omega)
    obtain ⟨d, hrun, hd, hrd⟩ := processRead_short fs happ hn (by rw [List.length_append]; omega)
    have hskim := skim_length_le (u ++ q)
    rw [List.length_append] at hskim
    have hidx : d.readIdx = c.readIdx + q.length := hrd
    obtain ⟨c', hserve, hc', hrd'⟩ := ih hd hqs.2 (by omega) (by omega)
    refine ⟨c', ?_, ?_, ?_⟩
    · rw [← List.singleton_append, serve_append, serve_piece fs hqs.1 (by omega), hrun]
      exact hserve
    · have hleft : leftover (skim (u ++ q)) qs = leftover u (q :: qs) := by
        simp only [leftover, List.flatten_cons, reduceCtorEq, if_false]
        split
        · rename_i hnil
          subst hnil
          simp
        · rw [skim_resume, List.append_assoc]
      exact hleft ▸ hc'
    · rw [hrd', hidx, List.flatten_cons, List.length_append, Nat.add_assoc]

/-- The calls for `qs` end in one that calls `do_request`. -/
def Completes (fs : FileSystem) (c : HttpConn) (qs : List (List UInt8)) : Prop :=
  ∃ (d c' : HttpConn) (code : HttpCode), d.doRequest fs = .ok (c', code) ∧ code ≠ .noRequest ∧
    serve fs c qs = .ok (c', code)

theorem Completes.append {qs : List (List UInt8)} (h : Completes fs c qs) (rest : List (List UInt8)) :
    Completes fs c (qs ++ rest) := by
  obtain ⟨d, c', code, hreq, hcode, hserve⟩ := h
  refine ⟨d, c', code, hreq, hcode, ?_⟩
  rw [serve_append, hserve]
  cases code <;> first | rfl | exact absurd rfl hcode

/-- One more piece completes the request exactly if `n` bytes are unscanned with it. -/
theorem Waiting.completes_iff {qs : List (List UInt8)} {p : List UInt8} (h : Waiting n c' u)
    (hn : n ≤ readBufferSize) (hrun : serve fs c qs = .ok (c', .noRequest)) (hp : p ≠ [])
    (hlen : c'.readIdx + p.length < readBufferSize) : Completes fs c (qs ++ [p]) ↔ n ≤ (u ++ p).length := by
  have hserve : serve fs c (qs ++ [p]) = (c'.append p).processRead fs := by
    rw [serve_append, hrun]
    exact serve_piece fs hp hlen
  have happ := h.append p hlen.le
  constructor
  · rintro ⟨d, e, code, -, hcode, hserve'⟩
    by_contra hlt
    obtain ⟨e', hrun', -⟩ := processRead_short fs happ hn (Nat.lt_of_not_le hlt)
    rw [hserve, hrun'] at hserve'
    cases hserve'
    exact hcode rfl
  · intro hle
    obtain ⟨d, e, code, hreq, hcode, hdone⟩ := processRead_long fs happ hlen hle
    exact ⟨d, e, code, hreq, hcode, hserve.trans hdone⟩

/-- The calls for all pieces so far ask for more while less than `n` bytes of the body
    are in the buffer, and the first one that finds them completes the request. -/
def MeetsBody (fs : FileSystem) (n : Nat) (c : HttpConn) (ps : List (List UInt8)) : Prop :=
  ∀ qs, qs <+: ps → qs ≠ [] →
    (c.readIdx + qs.flatten.length < c.checkedIdx + n → ∃ c', serve fs c qs = .ok (c', .noRequest)) ∧
    (c.checkedIdx + n ≤ c.readIdx + qs.flatten.length → Completes fs c qs)

/-- Among pieces that reach a total there is one that reaches it first. -/
theorem exists_reaching {m k : Nat} {qs : List (List UInt8)} (hne : qs ≠ [])
    (hge : m ≤ k + qs.flatten.length) :
    ∃ q₁ p q₂, qs = q₁ ++ p :: q₂ ∧ (q₁ ≠ [] → k + q₁.flatten.length < m) ∧
      m ≤ k + (q₁ ++ [p]).flatten.length := by
  induction qs generalizing k with
  | nil => exact absurd rfl hne
  | cons q qs ih =>
    by_cases hq : m ≤ k + q.length
    · exact ⟨[], q, qs, rfl, fun h => absurd rfl h, by simpa using hq⟩
    · simp only [List.flatten_cons, List.length_append] at hge
      have hqs : qs ≠ [] := by
        rintro rfl
        simp at hge
        omega
      obtain ⟨q₁, p, q₂, rfl, hlt, hle⟩ := ih hqs (k := k + q.length) (by omega)
      refine ⟨q :: q₁, p, q₂, rfl, fun _ => ?_, ?_⟩
      · by_cases hnil : q₁ = []
        · subst hnil
          simp
          omega
        · have := hlt hnil
          simp only [List.flatten_cons, List.length_append]
          omega
      · simp only [List.cons_append, List.flatten_cons, List.length_append] at hle ⊢
        omega

/-- A body of `n` bytes that begins at `m_start_line` is waited for as long as it takes,
    and no longer, if and only if what the earlier calls left unscanned and the piece
    that reaches the end of the body are `n` bytes together. -/
theorem meetsBody_iff (fs : FileSystem) (n : Nat) (c : HttpConn) (hinv : c.Inv)
    (hst : c.checkState = .content) (hlen : c.contentLength = n) (hstart : c.startLine = c.checkedIdx)
    (hfit : c.startLine + n < readBufferSize) (ps : List (List UInt8)) (hps : ∀ p ∈ ps, p ≠ [])
    (hsum : c.readIdx + ps.flatten.length < readBufferSize) :
    MeetsBody fs n c ps ↔ ∀ qs p, qs ++ [p] <+: ps → c.readIdx + qs.flatten.length < c.checkedIdx + n →
      c.checkedIdx + n ≤ c.readIdx + (qs ++ [p]).flatten.length →
      n ≤ (leftover c.pending qs ++ p).length := by
  have hwait : Waiting n c c.pending := by
    refine ⟨hinv, hst, hlen, ?_⟩
    have huns := Unscanned.ofNextLine hinv
    rwa [show c.nextLine.pending = c.pending by simp only [HttpConn.pending, nextLine, hstart]] at huns
  have hbound := hwait.unscanned.bound
  have hpre : ∀ qs, qs <+: ps → (∀ q ∈ qs, q ≠ []) ∧ qs.flatten.length ≤ ps.flatten.length :=
    fun qs hqs => ⟨fun q hq => hps q (hqs.subset hq), (prefix_flatten hqs).length_le⟩
  have hroom : ∀ {qs p}, qs ++ [p] <+: ps →
      p ≠ [] ∧ c.readIdx + qs.flatten.length + p.length < readBufferSize := by
    intro qs p hqs
    obtain ⟨hne, hle⟩ := hpre _ hqs
    simp only [List.flatten_append, List.flatten_singleton, List.length_append] at hle
    exact ⟨hne p (by simp), by omega⟩
  have hshort : ∀ qs, qs <+: ps → c.readIdx + qs.flatten.length < c.checkedIdx + n →
      ∃ c', serve fs c qs = .ok (c', .noRequest) ∧ Waiting n c' (leftover c.pending qs) ∧
        c'.readIdx = c.readIdx + qs.flatten.length := by
    intro qs hqs hlt
    obtain ⟨hne, hle⟩ := hpre qs hqs
    exact serve_waits fs hwait (by omega) hne (by omega) (by omega)
  constructor
  · intro hmeets qs p hqs hlt hge
    obtain ⟨hp, hlen⟩ := hroom hqs
    obtain ⟨c', hrun, hw, hrd⟩ := hshort qs ((List.prefix_append qs [p]).trans hqs) hlt
    exact (hw.completes_iff (by omega) hrun hp (hrd ▸ hlen)).mp ((hmeets _ hqs (by simp)).2 hge)
  · intro hcond qs hqs hne
    refine ⟨fun hlt => ?_, fun hge => ?_⟩
    · obtain ⟨c', hrun, -⟩ := hshort qs hqs hlt
      exact ⟨c', hrun⟩
    · obtain ⟨q₁, p, q₂, rfl, hlt, hle⟩ := exists_reaching hne hge
      have hqp : q₁ ++ [p] <+: ps :=
        (show q₁ ++ [p] <+: q₁ ++ p :: q₂ from ⟨q₂, by simp⟩).trans hqs
      obtain ⟨hp, hlen⟩ := hroom hqp
      rw [List.append_cons]
      refine Completes.append ?_ q₂
      by_cases hnil : q₁ = []
      · subst hnil
        refine (hwait.completes_iff (by omega) rfl hp hlen).mpr ?_
        simp only [List.nil_append, List.flatten_singleton] at hle
        rw [List.length_append]
        omega
      · obtain ⟨c', hrun, hw, hrd⟩ := hshort q₁ ((List.prefix_append q₁ [p]).trans hqp) (hlt hnil)
        exact (hw.completes_iff (by omega) hrun hp (hrd ▸ hlen)).mpr (hcond q₁ p hqp (hlt hnil) hle)

/-- A connection behind the header section of a request with a body of 5 bytes. -/
def awaitingFive : HttpConn :=
  { blank.init with
    checkState := .content
    contentLength := 5
    url := some 0
    readIdx := 1
    checkedIdx := 1
    startLine := 1 }

/-- A body in two pieces, with a line feed in front, where the scanner stops. -/
theorem meetsBody_cut :
    MeetsBody ⟨fun _ => none, fun _ _ => -1⟩ 5 awaitingFive [lf :: ascii "ab", ascii "cd"] := by
  refine (meetsBody_iff _ 5 awaitingFive ?_ rfl rfl rfl (by decide) _ (by decide) (by decide)).mpr ?_
  · exact ⟨⟨by decide, by decide, by decide, fun i h h' => absurd h' (Nat.not_lt.mpr h), by decide⟩,
      fun _ => ⟨0, 0, rfl, by decide, by decide, rfl⟩, rfl, by decide⟩
  · intro qs p hqs _ hge
    obtain ⟨r, hr⟩ := hqs
    rw [List.append_assoc, List.singleton_append, List.append_eq_cons_iff] at hr
    rcases hr with ⟨rfl, hp⟩ | ⟨qs, rfl, hr⟩
    · cases hp
      exact absurd hge (by decide)
    · rcases List.append_eq_cons_iff.mp hr.symm with ⟨rfl, hp⟩ | ⟨qs, -, hnil⟩
      · cases hp
        decide
      · simp at hnil

/-- A body in two pieces is still waited for when all of it is there. -/
theorem split_body_stalls :
    ¬ MeetsBody ⟨fun _ => none, fun _ _ => -1⟩ 5 awaitingFive [ascii "abc", ascii "de"] := by
  intro h
  obtain ⟨d, c', code, -, hcode, hrun⟩ := (h _ (List.prefix_refl _) (by decide)).2 (by decide)
  have hwait : (serve ⟨fun _ => none, fun _ _ => -1⟩ awaitingFive [ascii "abc", ascii "de"]).toOption.map
      Prod.snd = some .noRequest := by
    decide +kernel
  rw [hrun] at hwait
  exact hcode (Option.some.inj hwait)

end HttpConn

end Http
