-- SUMMARY: Line framing of a request: what the raw bytes say about its header section, and when process_read gives that verdict.
import LinuxLearning.HttpConn.Safety

/-!
# Framing

`Frames` reads a header section off raw bytes alone: which lines go to which parse
function, and whether the section is unfinished, rejected, complete or malformed.
The parser sees the bytes in pieces and overwrites the ones it has consumed. The
main result says that it hands over exactly the framed lines, and that its verdict
is the framing's in every case but one: a malformed line end.
-/

namespace Http

open Memory CString

/-- The verdict of the framing. An unfinished section carries the state to continue
    in and the bytes of the incomplete line. -/
inductive Verdict where
  | unfinished (st : CheckState) (u : List UInt8)
  | malformed
  | rejected
  | complete
deriving Repr, DecidableEq

/-- From state `st`, the bytes `u` hand over the lines `ls` and end in a verdict. -/
inductive Frames : CheckState → List UInt8 → List (CheckState × List UInt8) → Verdict → Prop where
  | unfinished {st u l} : front u = .more l → Frames st u [] (.unfinished st u)
  | malformed {st u l} : front u = .bad l → Frames st u [] .malformed
  | rejected {u l rest} : front u = .line l rest → requestTarget (cstr l) = none →
      Frames .requestLine u [(.requestLine, l)] .rejected
  | request {u l rest p ls v} : front u = .line l rest → requestTarget (cstr l) = some p →
      Frames .header rest ls v → Frames .requestLine u ((.requestLine, l) :: ls) v
  | complete {u l rest} : front u = .line l rest → cstr l = [] →
      Frames .header u [(.header, l)] .complete
  | header {u l rest ls v} : front u = .line l rest → cstr l ≠ [] →
      Frames .header rest ls v → Frames .header u ((.header, l) :: ls) v

namespace Frames

variable {st : CheckState} {u : List UInt8} {ls : List (CheckState × List UInt8)} {v : Verdict}

theorem front_line_length {l rest : List UInt8} (h : front u = .line l rest) :
    rest.length < u.length := by
  have := congrArg List.length (front_line h)
  simp only [List.length_append, List.length_cons] at this
  omega

theorem total_of_length (n : Nat) (u : List UInt8) (hn : u.length < n) (hst : st ≠ .content) :
    ∃ ls v, Frames st u ls v := by
  induction n generalizing st u with
  | zero => omega
  | succ n ih =>
    cases hf : front u with
    | more l => exact ⟨_, _, .unfinished hf⟩
    | bad l => exact ⟨_, _, .malformed hf⟩
    | line l rest =>
      have hlt := front_line_length hf
      obtain ⟨ls, v, hrest⟩ := @ih .header rest (by omega) (by decide)
      cases st with
      | content => exact absurd rfl hst
      | header =>
        by_cases hl : cstr l = []
        · exact ⟨_, _, .complete hf hl⟩
        · exact ⟨_, _, .header hf hl hrest⟩
      | requestLine =>
        cases ht : requestTarget (cstr l) with
        | none => exact ⟨_, _, .rejected hf ht⟩
        | some p => exact ⟨_, _, .request hf ht hrest⟩

/-- Every byte string has a framing. -/
theorem total (u : List UInt8) (hst : st ≠ .content) : ∃ ls v, Frames st u ls v :=
  total_of_length _ u (Nat.lt_succ_self _) hst

theorem unique {ls' : List (CheckState × List UInt8)} {v' : Verdict} (h : Frames st u ls v)
    (h' : Frames st u ls' v') : ls = ls' ∧ v = v' := by
  induction h generalizing ls' v' with
  | unfinished hf => cases h' <;> simp_all
  | malformed hf => cases h' <;> simp_all
  | rejected hf ht => cases h' <;> simp_all
  | complete hf hl => cases h' <;> simp_all
  | request hf ht hrest ih =>
    cases h' with
    | request hf' ht' hrest' =>
      rw [hf] at hf'
      cases hf'
      obtain ⟨rfl, rfl⟩ := ih hrest'
      exact ⟨rfl, rfl⟩
    | unfinished hf' => simp_all
    | malformed hf' => simp_all
    | rejected hf' ht' => simp_all
  | header hf hl hrest ih =>
    cases h' with
    | header hf' hl' hrest' =>
      rw [hf] at hf'
      cases hf'
      obtain ⟨rfl, rfl⟩ := ih hrest'
      exact ⟨rfl, rfl⟩
    | unfinished hf' => simp_all
    | malformed hf' => simp_all
    | complete hf' hl' => simp_all

/-- An unfinished framing continues with the bytes that arrive. -/
theorem resume {st' : CheckState} {u' p : List UInt8} {ls' : List (CheckState × List UInt8)}
    (h : Frames st u ls (.unfinished st' u')) (h' : Frames st' (u' ++ p) ls' v) :
    Frames st (u ++ p) (ls ++ ls') v := by
  generalize hv : Verdict.unfinished st' u' = w at h
  induction h with
  | unfinished hf => cases hv; exact h'
  | request hf ht hrest ih => exact .request (front_line_append hf p) ht (ih hv)
  | header hf hl hrest ih => exact .header (front_line_append hf p) hl (ih hv)
  | malformed | rejected | complete => cases hv

/-- An unfinished framing stops in front of an incomplete line. -/
theorem stopped {st' : CheckState} {u' : List UInt8} (h : Frames st u ls (.unfinished st' u'))
    (hst : st ≠ .content) : ∃ l, front u' = .more l ∧ st' ≠ .content := by
  generalize hv : Verdict.unfinished st' u' = w at h
  induction h with
  | unfinished hf => cases hv; exact ⟨_, hf, hst⟩
  | request hf ht hrest ih => exact ih (by decide) hv
  | header hf hl hrest ih => exact ih hst hv
  | malformed | rejected | complete => cases hv

/-- Every other verdict is final. -/
theorem append (h : Frames st u ls v) (hv : ∀ st' u', v ≠ .unfinished st' u') (p : List UInt8) :
    Frames st (u ++ p) ls v := by
  induction h with
  | unfinished hf => exact absurd rfl (hv _ _)
  | malformed hf => exact .malformed (front_bad_append hf p)
  | rejected hf ht => exact .rejected (front_line_append hf p) ht
  | complete hf hl => exact .complete (front_line_append hf p) hl
  | request hf ht hrest ih => exact .request (front_line_append hf p) ht (ih hv)
  | header hf hl hrest ih => exact .header (front_line_append hf p) hl (ih hv)

end Frames

namespace HttpConn

variable {fs : FileSystem} {c : HttpConn}

-- ---------------------------------------------------------------------------
-- Lines handed over by a run
-- ---------------------------------------------------------------------------

/-- The line a body of the main loop is entered with. -/
def lineOf (d : HttpConn) : CheckState × List UInt8 :=
  (d.checkState, bytes d.readBuf d.startLine (d.checkedIdx - 2 - d.startLine))

/-- The lines that go to `parse_request_line` and `parse_headers`. -/
def headLines (ds : List HttpConn) : List (CheckState × List UInt8) :=
  (ds.filter (·.checkState ≠ .content)).map lineOf

/-- Pieces delivered one by one, each to one `recv`, until `process_read` gives a
    verdict. -/
def serve (fs : FileSystem) : HttpConn → List (List UInt8) → Except Fault (HttpConn × HttpCode)
  | c, [] => .ok (c, .noRequest)
  | c, p :: ps =>
    match c.read [.data p] with
    | (c, false) => .ok (c, .closedConnection)
    | (c, true) => do
      let (c, code) ← c.processRead fs
      if code = .noRequest then serve fs c ps else return (c, code)

/-- The states in which a body of the main loop is entered by `serve`. -/
def serveBodies (fs : FileSystem) : HttpConn → List (List UInt8) → List HttpConn
  | _, [] => []
  | c, p :: ps =>
    match c.read [.data p] with
    | (_, false) => []
    | (c, true) =>
      bodies fs readFuel c .lineOk ++ match c.processRead fs with
        | .ok (c, .noRequest) => serveBodies fs c ps
        | _ => []

theorem headLines_nil : headLines [] = [] := rfl

theorem headLines_cons_content {d : HttpConn} (hd : d.checkState = .content) (ds : List HttpConn) :
    headLines (d :: ds) = headLines ds := by
  simp [headLines, hd]

theorem headLines_cons {d : HttpConn} (hd : d.checkState ≠ .content) (ds : List HttpConn) :
    headLines (d :: ds) = lineOf d :: headLines ds := by
  simp [headLines, hd]

theorem headLines_append (ds ds' : List HttpConn) :
    headLines (ds ++ ds') = headLines ds ++ headLines ds' := by
  simp [headLines]

theorem read_data {p : List UInt8} (hp : p ≠ []) (hle : c.readIdx + p.length < readBufferSize) :
    c.read [.data p] = (c.append p, true) := by
  obtain ⟨b, bs, rfl⟩ := List.exists_cons_of_ne_nil hp
  rw [read, if_neg (by omega), recvLoop, if_neg (by omega)]
  rw [List.take_of_length_le (by omega), recvLoop, if_neg (by simp only [append]; omega)]
  rintro ⟨⟩

/-- What arrives is pending behind what was pending. -/
theorem pending_append (h : c.startLine ≤ c.readIdx) (p : List UInt8) :
    (c.append p).pending = c.pending ++ p := by
  have hn : c.readIdx + p.length - c.startLine = (c.readIdx - c.startLine) + p.length := by omega
  simp only [pending, append, hn]
  rw [bytes_add, Nat.add_sub_cancel' h, bytes_blit]
  congr 1
  exact bytes_congr fun i _ hi => blit_of_lt _ _ (by omega)

-- ---------------------------------------------------------------------------
-- One call of process_read
-- ---------------------------------------------------------------------------

/-- In the body of a request every iteration is one of content, and the loop is left
    with a verdict or in the same state. -/
theorem readLoop_content (fs : FileSystem) (n : Nat) (status : LineStatus) (h : c.Inv)
    (hst : c.checkState = .content) :
    headLines (bodies fs n c status) = [] ∧
      ∀ c', readLoop fs n c status = .ok (c', .noRequest) → c'.Inv ∧ c'.checkState = .content := by
  have hloops := readLoop_loops fs n c status
  generalize bodies fs n c status = ds, readLoop fs n c status = r at hloops
  have hnext : ∀ {c d : HttpConn} {status status' : LineStatus}, c.Inv → c.checkState = .content →
      c.loopCond status = .ok (d, status') → CondStep c d status status' ∧ d.checkState = .content := by
    intro c d status status' h hst hcond
    obtain ⟨d', status'', hcond', hstep⟩ := loopCond_ok h status
    cases hcond.symm.trans hcond'
    exact ⟨hstep, hstep.state.trans hst⟩
  induction hloops with
  | fuel _ _ => exact ⟨headLines_nil, by rintro _ ⟨⟩⟩
  | cond _ => exact ⟨headLines_nil, by rintro _ ⟨⟩⟩
  | stop hcond _ =>
    obtain ⟨hstep, hd⟩ := hnext h hst hcond
    refine ⟨headLines_nil, ?_⟩
    rintro _ ⟨⟩
    exact ⟨hstep.inv, hd⟩
  | fault hcond _ =>
    obtain ⟨-, hd⟩ := hnext h hst hcond
    rw [headLines_cons_content hd]
    exact ⟨headLines_nil, by rintro _ ⟨⟩⟩
  | ret hcond hbody =>
    obtain ⟨hstep, hd⟩ := hnext h hst hcond
    obtain ⟨c', next, hrun, hres⟩ := loopBody_ok fs hstep.inv (hstep.body rfl) (loopBody_fits hbody)
    cases hbody.symm.trans hrun
    rw [headLines_cons_content hd]
    refine ⟨headLines_nil, ?_⟩
    rintro _ ⟨⟩
    exact absurd rfl (hres.verdict _ rfl)
  | next hcond hbody _ ih =>
    obtain ⟨hstep, hd⟩ := hnext h hst hcond
    obtain ⟨c', next, hrun, hres⟩ := loopBody_ok fs hstep.inv (hstep.body rfl) (loopBody_fits hbody)
    cases hbody.symm.trans hrun
    rw [headLines_cons_content hd]
    exact ih hres.inv (hres.content hd).1

/-- What a call of `process_read` answers for a framing verdict: a malformed line
    end is left where it is, and the answer asks for more data. -/
def Answers (k : Nat) (r : Except Fault (HttpConn × HttpCode)) : Verdict → Prop
  | .unfinished st u => ∃ c, r = .ok (c, .noRequest) ∧ c.Inv ∧ c.readIdx = k ∧
      c.checkState = st ∧ c.pending = u
  | .malformed => ∃ c, r = .ok (c, .noRequest) ∧ c.Inv ∧ c.readIdx = k ∧
      c.checkState ≠ .content ∧ ∃ l, front c.pending = .bad l
  | .rejected => ∃ c, r = .ok (c, .badRequest)
  | .complete => ∀ c, r = .ok (c, .noRequest) → c.Inv ∧ c.checkState = .content

/-- The state in which a body is entered on the line at the front. -/
structure LineStep (c d : HttpConn) (l rest : List UInt8) : Prop where
  inv : d.Inv
  state : d.checkState = c.checkState
  readIdx : d.readIdx = c.readIdx
  line : LineAt d.readBuf d.startLine l
  below : d.startLine + l.length < d.checkedIdx
  lineOf : lineOf d = (c.checkState, l)
  rest : d.nextLine.pending = rest

/-- `parse_line` has found the line `l`. -/
abbrev takeLine (c : HttpConn) (l : List UInt8) : HttpConn :=
  c.endLine (c.startLine + l.length)

theorem takeLine_step (h : c.Inv) {l rest : List UInt8} (hf : front c.pending = .line l rest) :
    LineStep c (c.takeLine l) l rest := by
  obtain ⟨hinv, hline, hrest⟩ := endLine_inv h hf
  refine ⟨hinv, rfl, rfl, hline, ?_, ?_, hrest⟩
  · simp only [endLine]
    omega
  · have hn : c.startLine + l.length + 2 - 2 - c.startLine = l.length := by omega
    simp only [lineOf, Prod.mk.injEq]
    refine ⟨rfl, ?_⟩
    simp only [endLine] at hline ⊢
    rw [hn]
    exact bytes_eq hline.get

theorem loopCond_line (h : c.Inv) (hst : c.checkState ≠ .content) {l rest : List UInt8}
    (hf : front c.pending = .line l rest) (status : LineStatus) :
    c.loopCond status = .ok (c.takeLine l, .lineOk) := by
  rw [loopCond, if_neg (fun hc => hst hc.1), parseLine_spec h.toScanning, hf]
  rfl

/-- Without a complete line the loop ends where the scan stopped. -/
theorem readLoop_scan (fs : FileSystem) (h : c.Inv) (hst : c.checkState ≠ .content) {l : List UInt8}
    (hf : front c.pending = .more l ∨ front c.pending = .bad l) (n : Nat) (status : LineStatus) :
    bodies fs (n + 1) c status = [] ∧
      readLoop fs (n + 1) c status =
        .ok ({ c with checkedIdx := c.startLine + l.length }, .noRequest) ∧
      ({ c with checkedIdx := c.startLine + l.length }).Inv := by
  have hcond : c.loopCond status = c.parseLine := if_neg fun hc => hst hc.1
  have hinv := advance_inv (l := l) h (by rcases hf with hf | hf <;> rw [hf] <;> rfl)
  rw [parseLine_spec h.toScanning] at hcond
  rcases hf with hf | hf <;> rw [hf] at hcond
  all_goals
    refine ⟨by simp [bodies, hcond, scanned], ?_, hinv⟩
    simp [readLoop, hcond, scanned]

/-- The request line goes to `parse_request_line`. -/
theorem loopBody_request (fs : FileSystem) {d : HttpConn} {l rest : List UInt8} (hd : LineStep c d l rest)
    (hst : c.checkState = .requestLine) :
    ∃ c', c' = (requestLineStep d.nextLine d.startLine (cstr l)).1 ∧ d.loopBody fs =
        .ok (c', if (requestTarget (cstr l)).isSome then .again .lineOk else .ret .badRequest) ∧
      c'.Inv ∧ c'.readIdx = c.readIdx ∧ c'.pending = rest ∧
      ((requestTarget (cstr l)).isSome → c'.checkState = .header) := by
  have hds : d.checkState = .requestLine := hd.state.trans hst
  obtain ⟨hstep, hpend, hhead⟩ := requestLineStep_ok hd.inv.nextLine hds hd.line hd.below
  refine ⟨_, rfl, ?_, hstep.inv, hstep.readIdx.trans hd.readIdx, hpend.trans hd.rest, hhead⟩
  simp only [loopBody, hds, onRequestLine_line (c := d.nextLine) hd.line]

/-- Every later line goes to `parse_headers`, up to the blank one. -/
theorem loopBody_header (fs : FileSystem) {d : HttpConn} {l rest : List UInt8} (hd : LineStep c d l rest)
    (hst : c.checkState = .header) (hne : cstr l ≠ []) :
    ∃ c', c' = (headerStep d.nextLine d.startLine l).1 ∧ d.loopBody fs = .ok (c', .again .lineOk) ∧
      c'.Inv ∧ c'.readIdx = c.readIdx ∧ c'.pending = rest ∧ c'.checkState = .header := by
  have hds : d.checkState = .header := hd.state.trans hst
  obtain ⟨hstep, -⟩ := headerStep_ok hd.inv.nextLine hds d.startLine l
  have hsame := headerStep_same (c := d.nextLine) hne d.startLine
  refine ⟨_, rfl, ?_, hstep.inv, hstep.readIdx.trans hd.readIdx, ?_, ?_⟩
  · simp only [loopBody, hds, onHeader_line (c := d.nextLine) fs hd.line hne]
  · rw [hsame]
    exact hd.rest
  · rw [hsame]
    exact hds

/-- One call hands over the framed lines and answers for the framing's verdict. The
    induction is on the framing: one line is one iteration. -/
theorem readLoop_frames {ls : List (CheckState × List UInt8)} {v : Verdict}
    (hf : Frames c.checkState c.pending ls v) (h : c.Inv) (hne : c.checkState ≠ .content) {n : Nat}
    (hn : c.pending.length < n) (status : LineStatus) :
    headLines (bodies fs n c status) = ls ∧ Answers c.readIdx (readLoop fs n c status) v := by
  obtain ⟨m, rfl⟩ : ∃ m, n = m + 1 := ⟨n - 1, by omega⟩
  generalize hst : c.checkState = st at hf
  generalize hu : c.pending = u at hf hn
  induction hf generalizing c m status with
  | unfinished hfr =>
    obtain ⟨hbs, hrun, hinv⟩ := readLoop_scan fs h hne (.inl (hu ▸ hfr)) m status
    rw [hbs]
    exact ⟨headLines_nil, _, hrun, hinv, rfl, hst, hu⟩
  | malformed hfr =>
    obtain ⟨hbs, hrun, hinv⟩ := readLoop_scan fs h hne (.inr (hu ▸ hfr)) m status
    rw [hbs]
    exact ⟨headLines_nil, _, hrun, hinv, rfl, hne, _, hu ▸ hfr⟩
  | @rejected u l rest hfr ht =>
    have hcond := loopCond_line h hne (hu ▸ hfr) status
    have hd := takeLine_step h (hu ▸ hfr)
    generalize c.takeLine l = d at hcond hd
    obtain ⟨c', -, hbody, -⟩ := loopBody_request fs hd hst
    rw [ht] at hbody
    obtain ⟨hbs, hrl⟩ := readLoop_ret hcond hbody m
    rw [hbs, hrl, headLines_cons (hd.state ▸ hne), hd.lineOf, hst]
    exact ⟨rfl, c', rfl⟩
  | @request u l rest p ls v hfr ht hrest ih =>
    have hcond := loopCond_line h hne (hu ▸ hfr) status
    have hd := takeLine_step h (hu ▸ hfr)
    generalize c.takeLine l = d at hcond hd
    obtain ⟨c', -, hbody, hinv, hrd, hpend, hhead⟩ := loopBody_request fs hd hst
    rw [ht] at hbody hhead
    obtain ⟨hbs, hrl⟩ := readLoop_next hcond hbody m
    have hlt := Frames.front_line_length hfr
    obtain ⟨m', rfl⟩ : ∃ m', m = m' + 1 := ⟨m - 1, by omega⟩
    obtain ⟨hls, hans⟩ := ih hinv (by rw [hhead rfl]; decide) .lineOk m' (hhead rfl) hpend
      (by omega)
    rw [hbs, hrl, headLines_cons (hd.state ▸ hne), hd.lineOf, hst, hls, ← hrd]
    exact ⟨rfl, hans⟩
  | @header u l rest ls v hfr hl hrest ih =>
    have hcond := loopCond_line h hne (hu ▸ hfr) status
    have hd := takeLine_step h (hu ▸ hfr)
    generalize c.takeLine l = d at hcond hd
    obtain ⟨c', -, hbody, hinv, hrd, hpend, hhead⟩ := loopBody_header fs hd hst hl
    obtain ⟨hbs, hrl⟩ := readLoop_next hcond hbody m
    have hlt := Frames.front_line_length hfr
    obtain ⟨m', rfl⟩ : ∃ m', m = m' + 1 := ⟨m - 1, by omega⟩
    obtain ⟨hls, hans⟩ := ih hinv (by rw [hhead]; decide) .lineOk m' hhead hpend (by omega)
    rw [hbs, hrl, headLines_cons (hd.state ▸ hne), hd.lineOf, hst, hls, ← hrd]
    exact ⟨rfl, hans⟩
  | @complete u l rest hfr hl =>
    have hcond := loopCond_line h hne (hu ▸ hfr) status
    have hd := takeLine_step h (hu ▸ hfr)
    generalize c.takeLine l = d at hcond hd
    have hds : d.checkState = .header := hd.state.trans hst
    obtain ⟨c', next, hrun, hstep, hnext⟩ :=
      onHeader_blank fs hd.inv.nextLine hds hd.line hl
    have hbody : d.loopBody fs = .ok (c', next) := by simp only [loopBody, hds, hrun]
    rcases hnext with ⟨-, code, rfl, hcode, -⟩ | ⟨-, rfl, rfl⟩
    · obtain ⟨hbs, hrl⟩ := readLoop_ret hcond hbody m
      rw [hbs, hrl, headLines_cons (hd.state ▸ hne), hd.lineOf, hst]
      refine ⟨rfl, fun c'' hc'' => ?_⟩
      cases hc''
      exact absurd rfl hcode
    · obtain ⟨hbs, hrl⟩ := readLoop_next hcond hbody m
      obtain ⟨hnil, hstay⟩ := readLoop_content fs m .lineOk hstep.inv rfl
      rw [hbs, hrl, headLines_cons (hd.state ▸ hne), hd.lineOf, hst, hnil]
      exact ⟨rfl, hstay⟩

theorem processRead_frames (fs : FileSystem) {ls : List (CheckState × List UInt8)} {v : Verdict}
    (hf : Frames c.checkState c.pending ls v) (h : c.Inv) (hne : c.checkState ≠ .content) :
    headLines (bodies fs readFuel c .lineOk) = ls ∧ Answers c.readIdx (c.processRead fs) v := by
  refine readLoop_frames hf h hne ?_ .lineOk
  have hrd := h.read_le
  rw [pending, bytes_length, readFuel]
  omega

-- ---------------------------------------------------------------------------
-- Pieces
-- ---------------------------------------------------------------------------

theorem recvLoop_checkState (c : HttpConn) (rs : List Recv) :
    (c.recvLoop rs).1.checkState = c.checkState := by
  fun_induction recvLoop c rs with
  | case6 c _ bs rs _ ih => exact ih
  | _ => rfl

theorem read_checkState (c : HttpConn) (rs : List Recv) :
    (c.read rs).1.checkState = c.checkState := by
  unfold read
  split
  · rfl
  · exact recvLoop_checkState c rs

/-- No line of the header section is met in the body of a request. -/
theorem serveBodies_content {ps : List (List UInt8)} (h : c.Inv) (hst : c.checkState = .content) :
    headLines (serveBodies fs c ps) = [] := by
  induction ps generalizing c with
  | nil => exact headLines_nil
  | cons p ps ih =>
    have hinv := read_inv h [.data p]
    have hcont := (read_checkState c [.data p]).trans hst
    rw [serveBodies]
    rcases hr : c.read [.data p] with ⟨c', ok⟩
    rw [hr] at hinv hcont
    cases ok with
    | false => exact headLines_nil
    | true =>
      obtain ⟨hnil, hstay⟩ := readLoop_content fs readFuel .lineOk hinv hcont
      simp only [headLines_append, hnil, List.nil_append]
      split
      · rename_i c'' hrun
        obtain ⟨hinv', hcont'⟩ := hstay c'' hrun
        exact ih hinv' hcont'
      · exact headLines_nil

/-- How `serve` ends for a verdict on all the bytes of the pieces. -/
def Outcome (r : Except Fault (HttpConn × HttpCode)) : Verdict → Prop
  | .unfinished _ _ => ∃ c, r = .ok (c, .noRequest)
  | .malformed => ∃ c, r = .ok (c, .noRequest)
  | .rejected => ∃ c, r = .ok (c, .badRequest)
  | .complete => True

/-- Pieces that arrive at a connection whose pending bytes hold no complete line. -/
theorem serve_frames {ps : List (List UInt8)} (h : c.Inv) (hne : c.checkState ≠ .content)
    (hpend : ∀ l rest, front c.pending ≠ .line l rest) (hps : ∀ p ∈ ps, p ≠ [])
    (hlen : c.readIdx + ps.flatten.length < readBufferSize)
    {ls : List (CheckState × List UInt8)} {v : Verdict}
    (hf : Frames c.checkState (c.pending ++ ps.flatten) ls v) :
    headLines (serveBodies fs c ps) = ls ∧ Outcome (serve fs c ps) v := by
  induction ps generalizing c ls with
  | nil =>
    rw [List.flatten_nil, List.append_nil] at hf
    generalize c.checkState = st at hf
    cases hf with
    | unfinished | malformed => exact ⟨headLines_nil, c, rfl⟩
    | rejected hfr | request hfr | complete hfr | header hfr => exact absurd hfr (hpend _ _)
  | cons p ps ih =>
    rw [List.forall_mem_cons] at hps
    simp only [List.flatten_cons, List.length_append] at hlen
    have hread := read_data hps.1 (c := c) (by omega)
    have hpd := pending_append (le_trans h.start_le h.checked_le) p
    have hinv := h.append p (by omega)
    have hrd : (c.append p).readIdx = c.readIdx + p.length := rfl
    have hst : (c.append p).checkState = c.checkState := rfl
    generalize c.append p = d at hread hpd hinv hrd hst
    rw [List.flatten_cons, ← List.append_assoc, ← hpd, ← hst] at hf
    rw [← hst] at hne
    obtain ⟨ls₁, v₁, hf₁⟩ := Frames.total d.pending hne
    obtain ⟨hls, hans⟩ := processRead_frames fs hf₁ hinv hne
    simp only [serveBodies, serve, hread, headLines_append, hls]
    cases v₁ with
    | unfinished st u =>
      obtain ⟨d', hrun, hinv', hrd', rfl, rfl⟩ := hans
      obtain ⟨l, hmore, hne'⟩ := hf₁.stopped hne
      obtain ⟨ls₂, v₂, hf₂⟩ := Frames.total (d'.pending ++ ps.flatten) hne'
      obtain ⟨rfl, rfl⟩ := hf.unique (hf₁.resume hf₂)
      obtain ⟨hls₂, hout⟩ := ih hinv' hne' (by simp [hmore]) hps.2 (by omega) hf₂
      simp only [hrun, hls₂]
      exact ⟨trivial, hout⟩
    | malformed =>
      obtain ⟨d', hrun, hinv', hrd', hne', l, hbad⟩ := hans
      obtain ⟨rfl, rfl⟩ := hf.unique (hf₁.append nofun _)
      obtain ⟨hls₂, hout⟩ := ih hinv' hne' (by simp [hbad]) hps.2 (by omega)
        (.malformed (front_bad_append hbad _))
      simp only [hrun, hls₂, List.append_nil]
      exact ⟨trivial, hout⟩
    | rejected =>
      obtain ⟨d', hrun⟩ := hans
      obtain ⟨rfl, rfl⟩ := hf.unique (hf₁.append nofun _)
      simp only [hrun, headLines_nil, List.append_nil]
      exact ⟨trivial, d', rfl⟩
    | complete =>
      obtain ⟨rfl, rfl⟩ := hf.unique (hf₁.append nofun _)
      refine ⟨?_, trivial⟩
      split
      · rename_i d' hrun
        obtain ⟨hinv', hst'⟩ := hans d' hrun
        rw [serveBodies_content hinv' hst', List.append_nil]
      · rw [headLines_nil, List.append_nil]

-- ---------------------------------------------------------------------------
-- The verdict of the framing
-- ---------------------------------------------------------------------------

/-- What the framing asks of the answer to the bytes so far. A malformed line end
    is a bad request, as it is for `parse_content` of `http_parse.cpp`. -/
def Asked (r : Except Fault (HttpConn × HttpCode)) : Verdict → Prop
  | .unfinished _ _ => ∃ c, r = .ok (c, .noRequest)
  | .malformed => ∃ c, r = .ok (c, .badRequest)
  | .rejected => ∃ c, r = .ok (c, .badRequest)
  | .complete => True

/-- After every piece, the lines handed over and the answer are those of the framing
    of the bytes delivered by then. -/
def MeetsFraming (fs : FileSystem) (c : HttpConn) (ps : List (List UInt8)) : Prop :=
  ∀ qs, qs <+: ps → ∀ ls v, Frames .requestLine qs.flatten ls v →
    headLines (serveBodies fs c qs) = ls ∧ Asked (serve fs c qs) v

/-- Some line end is malformed, and no line before it gives a verdict. -/
def Malformed (u : List UInt8) : Prop :=
  ∃ ls, Frames .requestLine u ls .malformed

theorem init_pending (c : HttpConn) : c.init.pending = [] := rfl

theorem prefix_flatten {ps qs : List (List UInt8)} (h : qs <+: ps) : qs.flatten <+: ps.flatten := by
  obtain ⟨rs, rfl⟩ := h
  exact ⟨rs.flatten, List.flatten_append.symm⟩

/-- A fresh connection gives the verdict of the framing on all pieces exactly when
    no line end is malformed. -/
theorem meetsFraming_iff (fs : FileSystem) (c : HttpConn) (ps : List (List UInt8))
    (hps : ∀ p ∈ ps, p ≠ []) (hlen : ps.flatten.length < readBufferSize) :
    MeetsFraming fs c.init ps ↔ ¬ Malformed ps.flatten := by
  have hrun : ∀ qs, qs <+: ps → ∀ ls v, Frames .requestLine qs.flatten ls v →
      headLines (serveBodies fs c.init qs) = ls ∧ Outcome (serve fs c.init qs) v := by
    intro qs hqs ls v hf
    have hle := (prefix_flatten hqs).length_le
    refine serve_frames (init_inv c) (by rintro ⟨⟩) ?_ (fun p hp => hps p (hqs.subset hp)) ?_ ?_
    · rw [init_pending]
      rintro _ _ ⟨⟩
    · simp only [init]
      omega
    · rw [init_pending, List.nil_append]
      exact hf
  constructor
  · rintro hmeets ⟨ls, hf⟩
    obtain ⟨-, c', hc'⟩ := hrun ps (List.prefix_refl ps) ls .malformed hf
    obtain ⟨-, c'', hc''⟩ := hmeets ps (List.prefix_refl ps) ls .malformed hf
    rw [hc'] at hc''
    cases congrArg (Except.map Prod.snd) hc''
  · intro hok qs hqs ls v hf
    obtain ⟨hls, hout⟩ := hrun qs hqs ls v hf
    refine ⟨hls, ?_⟩
    cases v with
    | unfinished st u => exact hout
    | rejected => exact hout
    | complete => trivial
    | malformed =>
      obtain ⟨r, hr⟩ := prefix_flatten hqs
      exact absurd ⟨ls, hr ▸ hf.append (by rintro _ _ ⟨⟩) r⟩ hok

theorem meetsFraming_get :
    MeetsFraming ⟨fun _ => none, fun _ _ => -1⟩ blank.init [ascii "GET / HTTP", ascii "/1.1\r"] := by
  refine (meetsFraming_iff _ _ _ (by decide) (by decide)).mpr ?_
  rintro ⟨ls, hf⟩
  have hmore : Frames .requestLine [ascii "GET / HTTP", ascii "/1.1\r"].flatten [] _ :=
    .unfinished (l := ascii "GET / HTTP/1.1") (by decide)
  cases (hf.unique hmore).2

/-- A carriage return without a line feed is answered by a request for more data. -/
theorem lone_cr_asks_for_more :
    ¬ MeetsFraming ⟨fun _ => none, fun _ _ => -1⟩ blank.init [ascii "GET / HTTP/1.1\rHost"] := by
  intro h
  obtain ⟨-, c, hc⟩ := h _ (List.prefix_refl _) [] .malformed
    (.malformed (l := ascii "GET / HTTP/1.1") (by decide))
  have hcode : (serve ⟨fun _ => none, fun _ _ => -1⟩ blank.init
      [ascii "GET / HTTP/1.1\rHost"]).toOption.map Prod.snd = some .noRequest := by
    decide +kernel
  rw [hc] at hcode
  cases hcode

end HttpConn

end Http
