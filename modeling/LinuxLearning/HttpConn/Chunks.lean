-- SUMMARY: The header section of a request as a run over its complete lines, and why the pieces it arrives in make no difference.
import LinuxLearning.HttpConn.Framing

/-!
# Pieces of a request

`Reads` is one call of `process_read` on a header section, one rule for each way an
iteration of the main loop can go. The parser looks only at bytes of complete lines,
and what it stores stays inside them, so every rule goes through when more bytes have
arrived behind (`Reads.split`). Two cuttings of one byte string are therefore two ways
to the same run on the whole string.
-/

namespace Http

open Memory CString

namespace HttpConn

variable {fs : FileSystem} {c c' : HttpConn}

/-! ## Bytes that arrive later -/

theorem append_nil (c : HttpConn) : c.append [] = c := rfl

theorem append_append (c : HttpConn) (p q : List UInt8) : c.append (p ++ q) = (c.append p).append q := by
  simp only [append, blit_append, List.length_append, Nat.add_assoc]

theorem append_of_lt (p : List UInt8) {i : Nat} (hi : i < c.readIdx) :
    (c.append p).readBuf i = c.readBuf i :=
  blit_of_lt _ _ hi

theorem endLine_append (p : List UInt8) {e : Nat} (he : e + 1 < c.readIdx) :
    (c.append p).endLine e = (c.endLine e).append p := by
  simp only [append, endLine]
  rw [blit_update _ _ _ he, blit_update _ _ _ (by omega)]

theorem urlStep_append (p : List UInt8) (u : Nat) (t : List UInt8) :
    urlStep (c.append p) u t = ((urlStep c u t).1.append p, (urlStep c u t).2) := by
  unfold urlStep
  split <;> rfl

theorem splitStep_append (p : List UInt8) {u : Nat} {l : List UInt8} (h : u + l.length < c.readIdx) :
    splitStep (c.append p) u l = ((splitStep c u l).1.append p, (splitStep c u l).2) := by
  dsimp only [splitStep]
  split
  · rename_i hlt
    have hblit := blit_update c.readBuf (s := c.readIdx) (i := u + (l.takeWhile fun b => !isBlank b).length)
      0 p (by omega)
    split
    · rw [← urlStep_append]
      simp only [append, hblit]
    · simp only [append, hblit]
  · rfl

theorem requestLineStep_append (p : List UInt8) {s : Nat} {l : List UInt8}
    (h : s + l.length < c.readIdx) :
    requestLineStep (c.append p) s l =
      ((requestLineStep c s l).1.append p, (requestLineStep c s l).2) := by
  dsimp only [requestLineStep]
  split
  · rename_i hlt
    have hblit := blit_update c.readBuf (s := c.readIdx) (i := s + (l.takeWhile fun b => !isBlank b).length)
      0 p (by omega)
    have hlen := congrArg List.length (List.takeWhile_append_dropWhile (p := isBlank)
      (l := l.drop ((l.takeWhile fun b => !isBlank b).length + 1)))
    rw [List.length_append, List.length_drop] at hlen
    split
    · rw [← splitStep_append]
      · simp only [append, hblit]
      · simp only
        omega
    · simp only [append, hblit]
  · rfl

theorem headerStep_append (p : List UInt8) (s : Nat) (l : List UInt8) :
    headerStep (c.append p) s l = ((headerStep c s l).1.append p, (headerStep c s l).2) := by
  unfold headerStep
  simp only [show (c.append p).contentLength = c.contentLength from rfl]
  repeat' split
  all_goals rfl

theorem openStep_append (fs : FileSystem) (c : HttpConn) (p path : List UInt8) :
    openStep fs (c.append p) path = ((openStep fs c path).1.append p, (openStep fs c path).2) := by
  unfold openStep
  repeat' split
  all_goals rfl

/-- The URL lies inside the lines that were handed over. -/
theorem doRequest_append (p : List UInt8) (h : c.Inv) (hst : c.checkState ≠ .requestLine)
    {code : HttpCode} (hrun : c.doRequest fs = .ok (c', code)) :
    (c.append p).doRequest fs = .ok (c'.append p, code) := by
  obtain ⟨u, e, hu, hue, he, h0⟩ := h.url hst
  have hrd := h.read_le
  obtain ⟨t, ht, hend⟩ := @TextAt.exists_of_nul readBufferSize _ _ _ hue (by omega) h0
  have ht' : TextAt readBufferSize (c.append p).readBuf u t :=
    ht.congr fun i _ hi => append_of_lt p (by omega)
  rw [doRequest_text fs hu ht h.realFile] at hrun
  rw [doRequest_text fs (c := c.append p) hu ht' h.realFile]
  have hstep := openStep_append fs { c with realFile := realFileOf c.realFile t } p (pathOf t)
  rw [Except.ok.inj hrun] at hstep
  exact congrArg Except.ok hstep

section Lines

variable {s : Nat} {l : List UInt8} {next : Next} (p : List UInt8)

theorem onRequestLine_append (hl : LineAt c.readBuf s l) (hs : s + l.length + 1 < c.readIdx)
    (hrun : c.onRequestLine s = .ok (c', next)) :
    (c.append p).onRequestLine s = .ok (c'.append p, next) := by
  have hl' : LineAt (c.append p).readBuf s l := hl.congr fun i hi => append_of_lt p (by omega)
  have hle := cstr_length_le l
  rw [onRequestLine, parseRequestLine_line hl.text, ok_bind] at hrun
  rw [onRequestLine, parseRequestLine_line hl'.text, ok_bind, requestLineStep_append p (by omega)]
  generalize requestLineStep c s (cstr l) = r at hrun ⊢
  by_cases hr : r.2 = .badRequest <;> simp only [hr, if_true, if_false] at hrun ⊢ <;> cases hrun <;> rfl

theorem onHeader_append (h : c.Inv) (hst : c.checkState = .header) (hl : LineAt c.readBuf s l)
    (hs : s + l.length + 1 < c.readIdx) (hrun : c.onHeader fs s = .ok (c', next)) :
    (c.append p).onHeader fs s = .ok (c'.append p, next) := by
  have hl' : LineAt (c.append p).readBuf s l := hl.congr fun i hi => append_of_lt p (by omega)
  obtain ⟨hstep, hne⟩ := headerStep_ok h hst s l
  rw [onHeader, parseHeaders_line hl, ok_bind] at hrun
  rw [onHeader, parseHeaders_line hl', ok_bind, headerStep_append]
  generalize headerStep c s l = r at hrun hstep hne ⊢
  obtain ⟨d, code⟩ := r
  by_cases hbad : code = .badRequest
  · simp only [hbad, if_true] at hrun ⊢
    cases hrun
    rfl
  by_cases hget : code = .getRequest
  · obtain ⟨d', code', hreq, -⟩ := doRequest_ok fs hstep.inv hne
    simp only [hget, if_true, hreq, doRequest_append p hstep.inv hne hreq, ok_bind] at hrun ⊢
    cases hrun
    rfl
  · simp only [hbad, hget, if_false] at hrun ⊢
    cases hrun
    rfl

/-- One iteration on a complete line. -/
theorem loopBody_append (h : c.Inv) (hst : c.checkState ≠ .content)
    (hl : LineAt c.readBuf c.startLine l) (hck : c.startLine + l.length + 1 < c.readIdx)
    (hrun : c.loopBody fs = .ok (c', next)) : (c.append p).loopBody fs = .ok (c'.append p, next) := by
  cases hs : c.checkState with
  | content => exact absurd hs hst
  | requestLine =>
    have hs' : (c.append p).checkState = .requestLine := hs
    simp only [loopBody, hs, hs'] at hrun ⊢
    exact onRequestLine_append (c := c.nextLine) p hl hck hrun
  | header =>
    have hs' : (c.append p).checkState = .header := hs
    simp only [loopBody, hs, hs'] at hrun ⊢
    exact onHeader_append (c := c.nextLine) p h.nextLine hs hl hck hrun

end Lines

/-! ## One call on a header section -/

/-- From `c`, a call of `process_read` that stays in the header section ends in `r`. -/
inductive Reads (fs : FileSystem) : HttpConn → HttpConn × HttpCode → Prop where
  | wait {c : HttpConn} {l : List UInt8} : front c.pending = .more l ∨ front c.pending = .bad l →
      Reads fs c ({ c with checkedIdx := c.startLine + l.length }, .noRequest)
  | ret {c c' : HttpConn} {l rest : List UInt8} {code : HttpCode} : front c.pending = .line l rest →
      (c.takeLine l).loopBody fs = .ok (c', .ret code) → Reads fs c (c', code)
  | next {c c' : HttpConn} {l rest : List UInt8} {r : HttpConn × HttpCode} :
      front c.pending = .line l rest → (c.takeLine l).loopBody fs = .ok (c', .again .lineOk) →
      c'.checkState ≠ .content → Reads fs c' r → Reads fs c r

/-- What an iteration on a complete line leaves behind. -/
structure Taken (c c' : HttpConn) (rest : List UInt8) (next : Next) : Prop where
  inv : c'.Inv
  readIdx : c'.readIdx = c.readIdx
  verdict : ∀ code, next = .ret code → code ≠ .noRequest
  pending : ∀ status, next = .again status → status = .lineOk ∧ c'.pending = rest

theorem takeLine_body (fs : FileSystem) (h : c.Inv) (hst : c.checkState ≠ .content) {l rest : List UInt8}
    (hf : front c.pending = .line l rest) :
    ∃ c' next, (c.takeLine l).loopBody fs = .ok (c', next) ∧ Taken c c' rest next := by
  have hd := takeLine_step h hf
  cases hs : c.checkState with
  | content => exact absurd hs hst
  | requestLine =>
    obtain ⟨c', -, hrun, hinv, hrd, hpend, -⟩ := loopBody_request fs hd hs
    refine ⟨c', _, hrun, hinv, hrd, ?_, ?_⟩
    · intro code hcode
      split at hcode <;> cases hcode
      decide
    · intro status hstatus
      split at hstatus <;> cases hstatus
      exact ⟨rfl, hpend⟩
  | header =>
    by_cases hl : cstr l = []
    · have hds := hd.state.trans hs
      obtain ⟨c', next, hrun, hstep, hnext⟩ := onHeader_blank fs hd.inv.nextLine hds hd.line hl
      refine ⟨c', next, by simp only [loopBody, hds, hrun], hstep.inv, hstep.readIdx.trans hd.readIdx, ?_, ?_⟩
      · rintro code rfl
        rcases hnext with ⟨-, code', hc, hne, -⟩ | ⟨-, hc, -⟩
        · cases hc
          exact hne
        · cases hc
      · rintro status rfl
        rcases hnext with ⟨-, code', hc, -⟩ | ⟨-, hc, rfl⟩
        · cases hc
        · cases hc
          exact ⟨rfl, hd.rest⟩
    · obtain ⟨c', -, hrun, hinv, hrd, hpend, -⟩ := loopBody_header fs hd hs hl
      refine ⟨c', _, hrun, hinv, hrd, ?_, ?_⟩
      · rintro code ⟨⟩
      · rintro status ⟨⟩
        exact ⟨rfl, hpend⟩

theorem takeLine_append (q : List UInt8) (h : c.Inv) (hst : c.checkState ≠ .content) {l rest : List UInt8}
    (hf : front c.pending = .line l rest) {next : Next}
    (hbody : (c.takeLine l).loopBody fs = .ok (c', next)) :
    front (c.append q).pending = .line l (rest ++ q) ∧
      ((c.append q).takeLine l).loopBody fs = .ok (c'.append q, next) := by
  have hd := takeLine_step h hf
  have hchk := hd.inv.checked_le
  have hrd := hd.readIdx
  simp only [endLine] at hchk
  have hlt : c.startLine + l.length + 1 < c.readIdx := by omega
  constructor
  · rw [pending_append (le_trans h.start_le h.checked_le), front_line_append hf]
  · rw [takeLine, show (c.append q).startLine = c.startLine from rfl, endLine_append q hlt]
    exact loopBody_append q hd.inv (by rw [hd.state]; exact hst) hd.line (by simpa [endLine] using hlt) hbody

namespace Reads

variable {r : HttpConn × HttpCode}

/-- Where the last scan stopped does not matter. -/
theorem rescan (hr : Reads fs c r) (k : Nat) : Reads fs { c with checkedIdx := k } r := by
  cases hr with
  | wait hf => exact .wait (c := { c with checkedIdx := k }) hf
  | ret hf hbody => exact .ret (c := { c with checkedIdx := k }) hf hbody
  | next hf hbody hst hr => exact .next (c := { c with checkedIdx := k }) hf hbody hst hr

/-- The call keeps the invariant, and another call without new bytes changes nothing. -/
theorem result (hr : Reads fs c r) (h : c.Inv) (hst : c.checkState ≠ .content) :
    r.1.Inv ∧ r.1.readIdx = c.readIdx ∧
      (r.2 = .noRequest → r.1.checkState ≠ .content ∧ Reads fs r.1 (r.1, .noRequest)) := by
  induction hr with
  | @wait c l hf =>
    refine ⟨advance_inv h (by rcases hf with hf | hf <;> rw [hf] <;> rfl), rfl, fun _ => ⟨hst, ?_⟩⟩
    exact Reads.rescan (.wait hf) _
  | ret hf hbody =>
    obtain ⟨c'', next, hrun, htaken⟩ := takeLine_body fs h hst hf
    cases hbody.symm.trans hrun
    exact ⟨htaken.inv, htaken.readIdx, fun hcode => absurd hcode (htaken.verdict _ rfl)⟩
  | next hf hbody hst' _ ih =>
    obtain ⟨c'', next, hrun, htaken⟩ := takeLine_body fs h hst hf
    cases hbody.symm.trans hrun
    obtain ⟨hinv, hrd, hwait⟩ := ih htaken.inv hst'
    exact ⟨hinv, hrd.trans htaken.readIdx, hwait⟩

/-- The main loop computes it, if it has enough fuel for the pending bytes. -/
theorem readLoop (hr : Reads fs c r) (h : c.Inv) (hst : c.checkState ≠ .content) {n : Nat}
    (hn : c.pending.length < n) (status : LineStatus) : HttpConn.readLoop fs n c status = .ok r := by
  induction hr generalizing n status with
  | wait hf =>
    obtain ⟨m, rfl⟩ : ∃ m, n = m + 1 := ⟨n - 1, by omega⟩
    exact (readLoop_scan fs h hst hf m status).2.1
  | ret hf hbody =>
    obtain ⟨m, rfl⟩ : ∃ m, n = m + 1 := ⟨n - 1, by omega⟩
    exact (readLoop_ret (loopCond_line h hst hf status) hbody m).2
  | next hf hbody hst' _ ih =>
    obtain ⟨m, rfl⟩ : ∃ m, n = m + 1 := ⟨n - 1, by omega⟩
    obtain ⟨c'', next, hrun, htaken⟩ := takeLine_body fs h hst hf
    cases hbody.symm.trans hrun
    have hlt := Frames.front_line_length hf
    rw [(readLoop_next (loopCond_line h hst hf status) hbody m).2]
    exact ih htaken.inv hst' (by rw [(htaken.pending _ rfl).2]; omega) .lineOk

theorem processRead (hr : Reads fs c r) (h : c.Inv) (hst : c.checkState ≠ .content) :
    c.processRead fs = .ok r := by
  refine hr.readLoop h hst ?_ .lineOk
  have hrd := h.read_le
  rw [HttpConn.pending, bytes_length, readFuel]
  omega

/-- A call on bytes of which some have not arrived yet: a verdict is the same without
    them, and otherwise the call goes on where the one without them stopped. -/
theorem split {q : List UInt8} (hr : Reads fs (c.append q) r) (h : c.Inv)
    (hst : c.checkState ≠ .content) :
    (∃ c', Reads fs c (c', .noRequest) ∧ Reads fs (c'.append q) r) ∨
      ∃ c' code, code ≠ .noRequest ∧ Reads fs c (c', code) ∧ r = (c'.append q, code) := by
  induction hn : c.pending.length using Nat.strong_induction_on generalizing c with
  | _ n ih =>
    subst hn
    cases hf : front c.pending with
    | more l => exact .inl ⟨_, .wait (.inl hf), hr.rescan _⟩
    | bad l => exact .inl ⟨_, .wait (.inr hf), hr.rescan _⟩
    | line l rest =>
      obtain ⟨c₁, next, hbody, htaken⟩ := takeLine_body fs h hst hf
      obtain ⟨hf', hbody'⟩ := takeLine_append q h hst hf hbody
      cases hr with
      | wait hw => rw [hf'] at hw; simp at hw
      | ret hf₂ hbody₂ =>
        cases hf'.symm.trans hf₂
        cases hbody'.symm.trans hbody₂
        exact .inr ⟨c₁, _, htaken.verdict _ rfl, .ret hf hbody, rfl⟩
      | next hf₂ hbody₂ hst₂ hr₂ =>
        cases hf'.symm.trans hf₂
        cases hbody'.symm.trans hbody₂
        have hlt := Frames.front_line_length hf
        rw [← (htaken.pending _ rfl).2] at hlt
        rcases ih _ hlt hr₂ htaken.inv hst₂ rfl with ⟨c', hr', hrest⟩ | ⟨c', code, hcode, hr', hend⟩
        · exact .inl ⟨c', .next hf hbody hst₂ hr', hrest⟩
        · exact .inr ⟨c', code, hcode, .next hf hbody hst₂ hr', hend⟩

end Reads

/-! ## Two ways of cutting a byte string -/

/-- The same parse: every member but the unread bytes is the same, and so are the
    bytes that were looked at. -/
structure SameParse (c d : HttpConn) : Prop where
  same : d = { c with readBuf := d.readBuf, readIdx := d.readIdx }
  read : ∀ i, i < c.checkedIdx → d.readBuf i = c.readBuf i

/-- Pieces that arrive at a waiting connection lead to the result of the whole. -/
theorem serve_reads {ps : List (List UInt8)} {r : HttpConn × HttpCode} (h : c.Inv)
    (hst : c.checkState ≠ .content) (hwait : Reads fs c (c, .noRequest)) (hps : ∀ p ∈ ps, p ≠ [])
    (hlen : c.readIdx + ps.flatten.length < readBufferSize) (hr : Reads fs (c.append ps.flatten) r) :
    ∃ c' q, serve fs c ps = .ok (c', r.2) ∧ c'.Inv ∧ r.1 = c'.append q := by
  induction ps generalizing c with
  | nil =>
    rw [List.flatten_nil, append_nil] at hr
    obtain rfl := Except.ok.inj ((hwait.processRead h hst).symm.trans (hr.processRead h hst))
    exact ⟨c, [], rfl, h, rfl⟩
  | cons p ps ih =>
    rw [List.forall_mem_cons] at hps
    rw [List.flatten_cons, append_append] at hr
    simp only [List.flatten_cons, List.length_append] at hlen
    have hread := read_data hps.1 (c := c) (by omega)
    have hinv := h.append p (by omega)
    have hlen' : (c.append p).readIdx = c.readIdx + p.length := rfl
    have hst' : (c.append p).checkState ≠ .content := hst
    rcases hr.split hinv hst' with ⟨c', hr', hrest⟩ | ⟨c', code, hcode, hr', rfl⟩
    · obtain ⟨hinv', hrd, hwait'⟩ := hr'.result hinv hst'
      obtain ⟨hst'', hagain⟩ := hwait' rfl
      obtain ⟨d, q, hserve, hd, hq⟩ := ih hinv' hst'' hagain hps.2 (by rw [hrd]; omega) hrest
      exact ⟨d, q, by simp [serve, hread, hr'.processRead hinv hst', hserve], hd, hq⟩
    · exact ⟨c', ps.flatten, by simp [serve, hread, hr'.processRead hinv hst', hcode],
        (hr'.result hinv hst').1, rfl⟩

/-- The effect of a header line on the body length `n` announced so far. -/
def lengthAfter (n : Int) (l : List UInt8) : Int :=
  if caseEq (cstr l) (ascii "Content-Length") then
    toInt32 (atolText ((cstr (l.drop 15)).dropWhile isBlank))
  else n

/-- The body length that the lines of a request leave in `m_content_length`. -/
def declaredLength (n : Int) (ls : List (CheckState × List UInt8)) : Int :=
  ls.foldl (fun n x => if x.1 = .header then lengthAfter n x.2 else n) n

theorem headerStep_length (s : Nat) (l : List UInt8) :
    (headerStep c s l).1.contentLength = lengthAfter c.contentLength l := by
  unfold headerStep lengthAfter
  by_cases hlen : caseEq (cstr l) (ascii "Content-Length")
  · have hmap : (cstr l).map tolower = (ascii "Content-Length").map tolower := eq_of_beq hlen
    have hne : cstr l ≠ [] := by
      intro hnil
      rw [hnil] at hmap
      exact absurd hmap (by decide)
    have hconn : ¬ caseEq ((cstr l).take 11) (ascii "Connection:") := by
      intro hconn
      have htake : ((cstr l).take 11).map tolower = (ascii "Connection:").map tolower := eq_of_beq hconn
      rw [List.map_take, hmap] at htake
      exact absurd htake (by decide)
    rw [if_neg hne, if_neg hconn, if_pos hlen, if_pos hlen]
  · rw [if_neg hlen, if_neg hlen]
    repeat' split
    all_goals rfl

/-- A header section that announces no body is read to its end. -/
theorem Reads.exists (fs : FileSystem) {ls : List (CheckState × List UInt8)} {v : Verdict}
    (hf : Frames c.checkState c.pending ls v) (h : c.Inv) (hst : c.checkState ≠ .content)
    (hlen : v = .complete → declaredLength c.contentLength ls = 0) : ∃ r, Reads fs c r := by
  generalize hs : c.checkState = st at hf
  generalize hu : c.pending = u at hf
  induction hf generalizing c with
  | unfinished hfr => exact ⟨_, .wait (.inl (hu ▸ hfr))⟩
  | malformed hfr => exact ⟨_, .wait (.inr (hu ▸ hfr))⟩
  | rejected hfr ht =>
    obtain ⟨c', -, hbody, -⟩ := loopBody_request fs (takeLine_step h (hu ▸ hfr)) hs
    rw [ht] at hbody
    exact ⟨_, .ret (hu ▸ hfr) hbody⟩
  | @request u l rest p ls v hfr ht hrest ih =>
    obtain ⟨c', hc', hbody, hinv, -, hpend, hhead⟩ := loopBody_request fs (takeLine_step h (hu ▸ hfr)) hs
    rw [ht] at hbody hhead
    have hst' : c'.checkState ≠ .content := by rw [hhead rfl]; decide
    have hkeep : c'.contentLength = c.contentLength := by
      obtain ⟨-, hstep⟩ := requestLineStep_text (c := (c.takeLine l).nextLine)
        (takeLine_step h (hu ▸ hfr)).line.text
      rw [hc', hstep.same]
      rfl
    obtain ⟨r, hr⟩ := ih hinv hst' (by simpa [declaredLength, hkeep] using hlen) (hhead rfl) hpend
    exact ⟨r, .next (hu ▸ hfr) hbody hst' hr⟩
  | @header u l rest ls v hfr hl hrest ih =>
    obtain ⟨c', hc', hbody, hinv, -, hpend, hhead⟩ := loopBody_header fs (takeLine_step h (hu ▸ hfr)) hs hl
    have hst' : c'.checkState ≠ .content := by rw [hhead]; decide
    have hkeep : c'.contentLength = lengthAfter c.contentLength l := by
      rw [hc', headerStep_length]
      rfl
    obtain ⟨r, hr⟩ := ih hinv hst' (by simpa [declaredLength, hkeep] using hlen) hhead hpend
    exact ⟨r, .next (hu ▸ hfr) hbody hst' hr⟩
  | @complete u l rest hfr hl =>
    have hd := takeLine_step h (hu ▸ hfr)
    have hds : (c.takeLine l).checkState = .header := hs
    have hzero : lengthAfter c.contentLength l = c.contentLength := by
      rw [lengthAfter, hl, if_neg (by decide)]
    obtain ⟨c', next, hrun, -, hnext⟩ := onHeader_blank fs hd.inv.nextLine hds hd.line hl
    have hbody : (c.takeLine l).loopBody fs = .ok (c', next) := by simp only [loopBody, hds, hrun]
    rcases hnext with ⟨-, code, rfl, -⟩ | ⟨hne, -⟩
    · exact ⟨_, .ret (hu ▸ hfr) hbody⟩
    · have hn := hlen rfl
      simp only [declaredLength, List.foldl_cons, List.foldl_nil, if_true, hzero] at hn
      exact absurd hn hne

theorem init_waits (fs : FileSystem) (c : HttpConn) : Reads fs c.init (c.init, .noRequest) :=
  .wait (c := c.init) (l := []) (.inl rfl)

/-- Two cuttings of the same bytes lead to the same parse, if the header lines leave
    the body length at 0. -/
theorem serve_cuts (fs : FileSystem) (c : HttpConn) (ps qs : List (List UInt8))
    (hps : ∀ p ∈ ps, p ≠ []) (hqs : ∀ q ∈ qs, q ≠ []) (hcut : ps.flatten = qs.flatten)
    (hlen : ps.flatten.length < readBufferSize)
    (hbody : ∀ ls v, Frames .requestLine ps.flatten ls v → declaredLength 0 ls = 0) :
    ∃ d e code, serve fs c.init ps = .ok (d, code) ∧ serve fs c.init qs = .ok (e, code) ∧
      SameParse d e := by
  have hinv := init_inv c
  have hst : c.init.checkState ≠ .content := nofun
  have hidx : c.init.readIdx = 0 := rfl
  have hpend : (c.init.append ps.flatten).pending = ps.flatten := by
    rw [pending_append (Nat.le_refl _), init_pending, List.nil_append]
  obtain ⟨ls, v, hf⟩ := Frames.total ps.flatten (show CheckState.requestLine ≠ .content from nofun)
  obtain ⟨r, hr⟩ := Reads.exists fs (c := c.init.append ps.flatten) (by rw [hpend]; exact hf)
    (hinv.append _ (by omega)) hst (fun _ => hbody ls v hf)
  obtain ⟨d, q, hd, hdinv, hdq⟩ := serve_reads hinv hst (init_waits fs c) hps (by omega) hr
  rw [hcut] at hr hlen
  obtain ⟨e, q', he, heinv, heq⟩ := serve_reads hinv hst (init_waits fs c) hqs (by omega) hr
  have heq' := hdq.symm.trans heq
  refine ⟨d, e, r.2, hd, he, ?_, fun i hi => ?_⟩
  · calc e = { e.append q' with readBuf := e.readBuf, readIdx := e.readIdx } := rfl
      _ = { d.append q with readBuf := e.readBuf, readIdx := e.readIdx } := by rw [heq']
      _ = { d with readBuf := e.readBuf, readIdx := e.readIdx } := rfl
  · have hchk : (d.append q).checkedIdx = (e.append q').checkedIdx := congrArg checkedIdx heq'
    simp only [append] at hchk
    have hdi := append_of_lt (c := d) q (i := i) (by have := hdinv.checked_le; omega)
    have hei := append_of_lt (c := e) q' (i := i) (by have := heinv.checked_le; omega)
    rw [← hdi, ← hei, heq']

theorem serve_cuts_get :
    ∃ d e code,
      serve ⟨fun _ => none, fun _ _ => -1⟩ blank.init [ascii "GET /a HTTP/1.1\r", ascii "\n\r\n"] =
        .ok (d, code) ∧
      serve ⟨fun _ => none, fun _ _ => -1⟩ blank.init [ascii "GET /a HTTP/1.1\r\n\r\n"] =
        .ok (e, code) ∧ SameParse d e := by
  refine serve_cuts _ _ _ _ (by decide) (by decide) (by decide) (by decide) ?_
  intro ls v hf
  have hline : front [ascii "GET /a HTTP/1.1\r", ascii "\n\r\n"].flatten =
      .line (ascii "GET /a HTTP/1.1") (ascii "\r\n") := by decide
  have hblank : front (ascii "\r\n") = .line [] [] := by decide
  have htarget : requestTarget (cstr (ascii "GET /a HTTP/1.1")) = some (ascii "/a") := by decide
  have hreq := Frames.request hline htarget (.complete hblank rfl)
  obtain ⟨rfl, -⟩ := hf.unique hreq
  decide

end HttpConn

end Http
