-- SUMMARY: Where the parser of http_parse.cpp and that of http_conn agree: the exact buffers on which their line scanners do, and the exact pieces on which their answers do.
import LinuxLearning.HttpConn.DocRoot
import LinuxLearning.HttpConn.Chunks
import LinuxLearning.HttpConn.RequestGrammar
import LinuxLearning.HttpParse.Parser

/-!
# Two parsers

The `return LINE_BAD` of `parse_line` in http_parse.cpp stands behind the tests of the byte,
not in the last of them, so an ordinary byte ends the scan. Requests begin with one, and the
answer is `BAD_REQUEST`.
-/

namespace Http.HttpConn

open Memory CString

variable {fs : FileSystem} {c c' d : HttpConn} {n : Nat} {status : LineStatus} {code : HttpCode}

/-- `process_read` reaches `do_request`. -/
def Reaches (fs : FileSystem) (c : HttpConn) : Prop :=
  ∃ d ∈ bodies fs readFuel c .lineOk, (request d).isSome

theorem storeBuf_forward (i : Int) (b : UInt8) :
    Ensures (c.storeBuf i b) fun d => d.checkState = c.checkState ∧ d.checkedIdx = c.checkedIdx :=
  .bind_any fun _ => .pure ⟨rfl, rfl⟩

/-- The scan goes forward. -/
theorem parseLineFuel_forward :
    Ensures (parseLineFuel n c) fun r => r.1.checkState = c.checkState ∧ c.checkedIdx ≤ r.1.checkedIdx := by
  have hstay : ∀ status, Ensures (pure (c, status))
      fun r : HttpConn × LineStatus => r.1.checkState = c.checkState ∧ c.checkedIdx ≤ r.1.checkedIdx :=
    fun status => .pure ⟨rfl, Nat.le_refl _⟩
  induction n generalizing c with
  | zero => exact hstay _
  | succ n ih =>
    refine .bind_any fun temp => .ite (.ite (hstay _) ?_) (.ite (.ite ?_ (hstay _)) ?_)
    · refine .bind_any fun b => .ite ?_ (hstay _)
      refine (storeBuf_forward _ _).bind fun d hd => (storeBuf_forward _ _).bind fun e he => .pure ?_
      exact ⟨he.1.trans hd.1, by simp only [he.2, hd.2]; omega⟩
    · refine .bind_any fun b => .ite ?_ (hstay _)
      refine (storeBuf_forward _ _).bind fun d hd => (storeBuf_forward _ _).bind fun e he => .pure ?_
      exact ⟨he.1.trans hd.1, by simp only [he.2, hd.2]; omega⟩
    · refine (ih (c := { c with checkedIdx := c.checkedIdx + 1 }) fun _ => .pure ⟨rfl, Nat.le_refl _⟩).mono ?_
      exact fun r hr => ⟨hr.1, Nat.le_of_succ_le hr.2⟩

theorem loopCond_state : Ensures (c.loopCond status) fun r => r.1.checkState = c.checkState :=
  .ite (.pure rfl) (parseLineFuel_forward.mono fun _ h => h.1)

theorem parseHeaders_code {text : Nat} : Ensures (c.parseHeaders text) fun r =>
    r.2 ≠ .badRequest ∧ (r.1.checkState = c.checkState ∨ r.1.checkState = .content) := by
  refine .bind_any fun b => .ite (.ite (.pure ⟨nofun, .inr rfl⟩) (.pure ⟨nofun, .inl rfl⟩)) ?_
  refine .bind_any fun b => .ite ?_ ?_
  · exact .bind_any fun u => .bind_any fun b => .ite (.pure ⟨nofun, .inl rfl⟩) (.pure ⟨nofun, .inl rfl⟩)
  refine .bind_any fun b => .ite ?_ ?_
  · exact .bind_any fun u => .bind_any fun n => .pure ⟨nofun, .inl rfl⟩
  refine .bind_any fun b => .ite ?_ (.pure ⟨nofun, .inl rfl⟩)
  exact .bind_any fun u => .pure ⟨nofun, .inl rfl⟩

theorem parseContent_state {text : Nat} :
    Ensures (c.parseContent text) fun r => r.1.checkState = c.checkState :=
  .bind_any fun _ => .ite ((storeBuf_forward _ _).bind fun _ hd => .pure hd.1) (.pure rfl)

/-- Behind the request line an iteration ends the call only by `do_request`. -/
theorem loopBody_reaches (hst : d.checkState ≠ .requestLine) : Ensures (d.loopBody fs) fun r =>
    match r.2 with
    | .ret _ => (request d).isSome
    | .again _ => r.1.checkState ≠ .requestLine := by
  unfold loopBody request
  cases hs : d.checkState with
  | requestLine => exact absurd hs hst
  | header =>
    dsimp only
    cases hrun : d.nextLine.parseHeaders d.startLine with
    | error f =>
      simp only [onHeader, hrun]
      exact .throw
    | ok r =>
      obtain ⟨e, ret⟩ := r
      obtain ⟨hbad, hstate⟩ := parseHeaders_code _ hrun
      simp only [onHeader, hrun, ok_bind, if_neg hbad]
      by_cases hget : ret = .getRequest
      · subst hget
        exact .bind_any fun _ => .pure rfl
      · rw [if_neg hget]
        refine .pure ?_
        rcases hstate with h | h
        · rw [h]
          exact hst
        · rw [h]
          rintro ⟨⟩
  | content =>
    dsimp only
    cases hrun : d.nextLine.parseContent d.startLine with
    | error f =>
      simp only [onContent, hrun]
      exact .throw
    | ok r =>
      obtain ⟨e, ret⟩ := r
      have hstate := parseContent_state _ hrun
      simp only [onContent, hrun, ok_bind]
      by_cases hget : ret = .getRequest
      · subst hget
        exact .bind_any fun _ => .pure rfl
      · rw [if_neg hget]
        refine .pure ?_
        rw [hstate]
        exact hst

/-- Behind the request line, `do_request` gives every verdict. -/
theorem readLoop_reaches (hst : c.checkState ≠ .requestLine) (hrun : readLoop fs n c status = .ok (c', code))
    (hcode : code ≠ .noRequest) : ∃ d ∈ bodies fs n c status, (request d).isSome := by
  have h := readLoop_loops fs n c status
  generalize bodies fs n c status = ds, readLoop fs n c status = r at h hrun
  have hstate : ∀ {c d : HttpConn} {status status' : LineStatus}, c.loopCond status = .ok (d, status') →
      c.checkState ≠ .requestLine → d.checkState ≠ .requestLine := by
    intro c d status status' hcond hst
    rw [loopCond_state _ hcond]
    exact hst
  induction h with
  | fuel _ _ => cases hrun
  | cond _ => cases hrun
  | stop _ _ =>
    cases hrun
    exact absurd rfl hcode
  | fault _ _ => cases hrun
  | ret hcond hbody => exact ⟨_, List.mem_singleton_self _, loopBody_reaches (hstate hcond hst) _ hbody⟩
  | next hcond hbody _ ih =>
    obtain ⟨x, hx, hsome⟩ := ih (loopBody_reaches (hstate hcond hst) _ hbody) hrun
    exact ⟨x, List.mem_cons_of_mem _ hx, hsome⟩

/-- The first line is complete, and not a request line. -/
def BadLine (u : List UInt8) : Prop :=
  ∃ l rest, front u = .line l rest ∧ ¬ ∃ path, RequestLine (cstr l) path

theorem badLine_iff {u l rest : List UInt8} (hf : front u = .line l rest) :
    BadLine u ↔ requestTarget (cstr l) = none := by
  constructor
  · rintro ⟨l', rest', hf', hnone⟩
    cases hf.symm.trans hf'
    exact Option.eq_none_iff_forall_ne_some.mpr fun path hpath => hnone ⟨path, requestTarget_iff.mp hpath⟩
  · intro hnone
    refine ⟨l, rest, hf, ?_⟩
    rintro ⟨path, hline⟩
    rw [requestTarget_iff.mpr hline] at hnone
    cases hnone

theorem not_badLine {u l : List UInt8} (hf : front u = .more l ∨ front u = .bad l) : ¬ BadLine u := by
  rintro ⟨l', rest, hline, -⟩
  rw [hline] at hf
  exact hf.elim nofun nofun

/-- Without a complete line nothing is rejected. -/
theorem not_rejects {l : List UInt8} (h : c.Inv) (hne : c.checkState ≠ .content)
    (hf : front c.pending = .more l ∨ front c.pending = .bad l) :
    ¬ ∃ c', c.processRead fs = .ok (c', .badRequest) ∧ ¬ Reaches fs c := by
  obtain ⟨-, hrun, -⟩ := readLoop_scan fs h hne hf (readBufferSize + 1) .lineOk
  rintro ⟨c', hrun', -⟩
  cases hrun.symm.trans hrun'

/-- The first call on a fresh connection rejects a bad line, and nothing else. -/
theorem processRead_rejects_iff (h : c.Inv) (hst : c.checkState = .requestLine) :
    (∃ c', c.processRead fs = .ok (c', .badRequest) ∧ ¬ Reaches fs c) ↔ BadLine c.pending := by
  have hne : c.checkState ≠ .content := by rw [hst]; rintro ⟨⟩
  have hfuel : readFuel = readBufferSize + 1 + 1 := rfl
  cases hf : front c.pending with
  | more l => exact iff_of_false (not_rejects h hne (.inl hf)) (not_badLine (.inl hf))
  | bad l => exact iff_of_false (not_rejects h hne (.inr hf)) (not_badLine (.inr hf))
  | line l rest =>
    rw [badLine_iff hf]
    have hcond := loopCond_line h hne hf .lineOk
    have hd := takeLine_step h hf
    have hds : (c.takeLine l).checkState = .requestLine := hd.state.trans hst
    obtain ⟨e, -, hbody, -, -, -, hhead⟩ := loopBody_request fs hd hst
    cases htarget : requestTarget (cstr l) with
    | none =>
      rw [htarget] at hbody
      obtain ⟨hbs, hrl⟩ := readLoop_ret hcond hbody (readBufferSize + 1)
      refine iff_of_true ⟨e, hrl, ?_⟩ rfl
      rintro ⟨d, hmem, hsome⟩
      rw [hfuel, hbs, List.mem_singleton] at hmem
      subst hmem
      simp [request, hds] at hsome
    | some path =>
      rw [htarget] at hbody hhead
      obtain ⟨hbs, hrl⟩ := readLoop_next hcond hbody (readBufferSize + 1)
      refine iff_of_false ?_ (by rintro ⟨⟩)
      rintro ⟨c', hrun, hnot⟩
      rw [processRead, hfuel, hrl] at hrun
      obtain ⟨d, hmem, hsome⟩ := readLoop_reaches (by rw [hhead rfl]; rintro ⟨⟩) hrun (by rintro ⟨⟩)
      exact hnot ⟨d, by rw [hfuel, hbs]; exact List.mem_cons_of_mem _ hmem, hsome⟩

end Http.HttpConn

namespace HttpParse

open Memory CString Http

variable {fs : FileSystem} {p : Parser} {c : HttpConn} {u piece : List UInt8} {ps : List (List UInt8)}

/-! ## The line scanners -/

theorem readBufferSize_le : readBufferSize ≤ bufferSize := by
  decide

/-- The two functions return the same status, and leave the same index and buffer. -/
def SameLine (p : Parser) (c : HttpConn) : Prop :=
  ∃ p' c' status, p.parseLine = .ok (p', status) ∧ c.parseLine = .ok (c', status) ∧
    p'.checkedIndex = c'.checkedIdx ∧ p'.buffer = c'.readBuf

namespace Parser

theorem loadBuf_ok {i : Nat} (hi : i < bufferSize) : p.loadBuf i = .ok (p.buffer i) :=
  if_pos hi

theorem storeBuf_nat {i : Nat} (hi : i < bufferSize) (b : UInt8) :
    p.storeBuf i b = .ok { p with buffer := Function.update p.buffer i b } := by
  have h : (0 : Int) ≤ i ∧ (i : Int) < bufferSize := ⟨Int.natCast_nonneg i, Int.ofNat_lt.mpr hi⟩
  rw [storeBuf, store, if_pos h]
  rfl

/-- An ordinary byte ends the scan where it stands. -/
theorem parseLine_ordinary (hlt : p.checkedIndex < p.readIndex) (hread : p.readIndex ≤ bufferSize)
    (hcr : p.buffer p.checkedIndex ≠ cr) (hlf : p.buffer p.checkedIndex ≠ lf) :
    p.parseLine = .ok (p, .lineBad) := by
  rw [parseLine, if_pos hlt, loadBuf_ok (by omega), ok_bind, if_neg hcr, if_neg hlf]
  rfl

end Parser

/-- Both end well, with the same status, index and buffer. -/
def SameOutcome (x : Except Fault (Parser × LineStatus)) (y : Except Fault (HttpConn × LineStatus)) : Prop :=
  ∃ p' c' status, x = .ok (p', status) ∧ y = .ok (c', status) ∧
    p'.checkedIndex = c'.checkedIdx ∧ p'.buffer = c'.readBuf

theorem SameOutcome.ite {P : Prop} [Decidable P] {x x' : Except Fault (Parser × LineStatus)}
    {y y' : Except Fault (HttpConn × LineStatus)} (hpos : P → SameOutcome x y) (hneg : ¬ P → SameOutcome x' y') :
    SameOutcome (if P then x else x') (if P then y else y') := by
  split
  · rename_i h
    exact hpos h
  · rename_i h
    exact hneg h

/-- The parsers hold the same bytes, and have scanned as far. -/
structure Twin (p : Parser) (c : HttpConn) : Prop where
  buffer : p.buffer = c.readBuf
  checked : p.checkedIndex = c.checkedIdx
  read : p.readIndex = c.readIdx
  le : c.readIdx ≤ readBufferSize

namespace Twin

variable {i : Nat}

theorem ret (h : Twin p c) (status : LineStatus) : SameOutcome (pure (p, status)) (pure (c, status)) :=
  ⟨p, c, status, rfl, rfl, h.checked, h.buffer⟩

theorem bind_load (h : Twin p c) (hi : i < c.readIdx) {f : UInt8 → Except Fault (Parser × LineStatus)}
    {g : UInt8 → Except Fault (HttpConn × LineStatus)} (hnext : SameOutcome (f (c.readBuf i)) (g (c.readBuf i))) :
    SameOutcome (p.loadBuf i >>= f) (c.loadBuf i >>= g) := by
  have hlt : i < readBufferSize := Nat.lt_of_lt_of_le hi h.le
  have hc : c.loadBuf i = .ok (c.readBuf i) := if_pos hlt
  rw [Parser.loadBuf_ok (Nat.lt_of_lt_of_le hlt readBufferSize_le), hc, h.buffer]
  exact hnext

theorem bind_store (h : Twin p c) (hi : i < c.readIdx) {b : UInt8} {f : Parser → Except Fault (Parser × LineStatus)}
    {g : HttpConn → Except Fault (HttpConn × LineStatus)}
    (hnext : ∀ q d, Twin q d → d.checkedIdx = c.checkedIdx → d.readIdx = c.readIdx → SameOutcome (f q) (g d)) :
    SameOutcome (p.storeBuf i b >>= f) (c.storeBuf i b >>= g) := by
  have hlt : i < readBufferSize := Nat.lt_of_lt_of_le hi h.le
  rw [Parser.storeBuf_nat (Nat.lt_of_lt_of_le hlt readBufferSize_le), HttpConn.storeBuf_nat hlt]
  exact hnext _ _ ⟨congrArg (Function.update · i b) h.buffer, h.checked, h.read, h.le⟩ rfl rfl

/-- The scanners agree at the end of the bytes and at a line end. -/
theorem sameLine (h : Twin p c)
    (hend : c.readIdx ≤ c.checkedIdx ∨ c.readBuf c.checkedIdx = cr ∨ c.readBuf c.checkedIdx = lf) :
    SameLine p c := by
  change SameOutcome p.parseLine c.parseLine
  rw [Parser.parseLine, HttpConn.parseLine, h.checked, h.read]
  rcases Nat.lt_or_ge c.checkedIdx c.readIdx with hlt | hge
  swap
  · rw [if_neg (Nat.not_lt_of_le hge), Nat.sub_eq_zero_of_le hge]
    exact h.ret _
  obtain ⟨n, hn⟩ : ∃ n, c.readIdx - c.checkedIdx = n + 1 := ⟨c.readIdx - c.checkedIdx - 1, by omega⟩
  rw [if_pos hlt, hn, HttpConn.parseLineFuel]
  refine h.bind_load hlt (.ite (fun _ => ?_) fun hcr => .ite (fun _ => ?_) fun hlf => ?_)
  · -- '\r': the next byte decides
    refine .ite (fun _ => h.ret _) fun hlast => h.bind_load (by omega) (.ite (fun _ => ?_) fun _ => h.ret _)
    refine h.bind_store hlt fun q d hqd hidx hread => ?_
    rw [hqd.checked]
    refine hqd.bind_store (by omega) fun q d hqd _ _ => ?_
    rw [hqd.checked]
    exact ⟨_, _, _, rfl, rfl, rfl, hqd.buffer⟩
  · -- '\n': the byte before decides
    refine .ite (fun _ => ?_) fun _ => h.ret _
    refine h.bind_load (by omega) (.ite (fun _ => ?_) fun _ => h.ret _)
    refine h.bind_store (by omega) fun q d hqd hidx hread => ?_
    rw [hqd.checked]
    refine hqd.bind_store (by omega) fun q d hqd _ _ => ?_
    rw [hqd.checked]
    exact ⟨_, _, _, rfl, rfl, rfl, hqd.buffer⟩
  · rcases hend with hge | h | h
    · exact absurd hlt (Nat.not_lt_of_le hge)
    · exact absurd h hcr
    · exact absurd h hlf

/-- At an ordinary byte the scanner of `http_conn` goes on, the other does not. -/
theorem not_sameLine (h : Twin p c) (hlt : c.checkedIdx < c.readIdx) (hcr : c.readBuf c.checkedIdx ≠ cr)
    (hlf : c.readBuf c.checkedIdx ≠ lf) : ¬ SameLine p c := by
  have hp : p.parseLine = .ok (p, .lineBad) := by
    apply Parser.parseLine_ordinary
    · rwa [h.checked, h.read]
    · rw [h.read]
      exact Nat.le_trans h.le readBufferSize_le
    · rwa [h.buffer, h.checked]
    · rwa [h.buffer, h.checked]
  rintro ⟨p', c', status, hp', hc', hsame, -⟩
  cases hp.symm.trans hp'
  have hload : c.loadBuf c.checkedIdx = .ok (c.readBuf c.checkedIdx) := if_pos (Nat.lt_of_lt_of_le hlt h.le)
  obtain ⟨n, hn⟩ : ∃ n, c.readIdx - c.checkedIdx = n + 1 := ⟨c.readIdx - c.checkedIdx - 1, by omega⟩
  rw [HttpConn.parseLine, hn, HttpConn.parseLineFuel, hload, ok_bind, if_neg hcr, if_neg hlf] at hc'
  have hforward : c.checkedIdx + 1 ≤ c'.checkedIdx := (HttpConn.parseLineFuel_forward _ hc').2
  rw [← hsame, h.checked] at hforward
  exact Nat.not_succ_le_self _ hforward

end Twin

theorem sameLine_iff (hbuf : p.buffer = c.readBuf) (hidx : p.checkedIndex = c.checkedIdx)
    (hread : p.readIndex = c.readIdx) (hle : c.readIdx ≤ readBufferSize) :
    SameLine p c ↔ c.readIdx ≤ c.checkedIdx ∨ c.readBuf c.checkedIdx = cr ∨ c.readBuf c.checkedIdx = lf := by
  have h : Twin p c := ⟨hbuf, hidx, hread, hle⟩
  refine ⟨fun hsame => ?_, h.sameLine⟩
  by_contra hnot
  rw [not_or, not_or, Nat.not_le] at hnot
  exact h.not_sameLine hnot.1 hnot.2.1 hnot.2.2 hsame

/-! ## The answers -/

/-- `parse_content` reports what `process_read` does: reaching `do_request`, rejecting, or
    asking for more. -/
def Agrees (code : HttpCode) (reached : Prop) (ret : Http.HttpCode) : Prop :=
  (code = .getRequest ↔ reached) ∧ (code = .badRequest ↔ ret = .badRequest ∧ ¬ reached) ∧
    (code = .noRequest ↔ ret = .noRequest)

/-- The two parsers agree at each piece, up to the first one that `parse_content` does not
    ask for more after. -/
def AgreeOn (fs : FileSystem) : Parser → HttpConn → List (List UInt8) → Prop
  | _, _, [] => True
  | p, c, piece :: ps => ∃ p' code c₁ c' ret, (p.append piece).parseContent = .ok (p', code) ∧
      c.read [.data piece] = (c₁, true) ∧ c₁.processRead fs = .ok (c', ret) ∧
      Agrees code (c₁.Reaches fs) ret ∧ (code = .noRequest → AgreeOn fs p' c' ps)

namespace Parser

theorem append_append (p : Parser) (l r : List UInt8) : p.append (l ++ r) = (p.append l).append r := by
  simp only [append, blit_append, List.length_append, Nat.add_assoc]

theorem init_byte {i : Nat} (hi : i < u.length) : (init.append u).buffer i = u[i] := by
  have hget := get_of_bytes (r := []) (by rw [List.append_nil]; exact bytes_blit (fun _ => 0) 0 u) i hi
  rwa [Nat.zero_add] at hget

/-- An empty line is no request line. -/
theorem parseRequestline_empty {temp : Nat} (h : TextAt bufferSize p.buffer temp []) :
    p.parseRequestline temp = .ok (p, .badRequest) := by
  rw [parseRequestline, strpbrk_text h]
  rfl

theorem parseContent_bad {q : Parser} (h : p.parseLine = .ok (q, .lineBad)) :
    p.parseContent = .ok (q, .badRequest) := by
  rw [parseContent, contentLoop, h]
  rfl

/-- The first piece is rejected, unless it is a carriage return. -/
theorem parseContent_first (hne : u ≠ []) (hlen : u.length ≤ bufferSize) :
    (u = [cr] ∧ (init.append u).parseContent = .ok (init.append u, .noRequest)) ∨
    (u ≠ [cr] ∧ ∃ p, (init.append u).parseContent = .ok (p, .badRequest)) := by
  have hget : ∀ i (hi : i < u.length), (init.append u).buffer i = u[i] := fun i hi => init_byte hi
  have hchecked : (init.append u).checkedIndex = 0 := rfl
  have hstart : (init.append u).startLine = 0 := rfl
  have hstate : (init.append u).checkState = .requestLine := rfl
  have hread : (init.append u).readIndex = u.length := Nat.zero_add _
  generalize init.append u = p at *
  obtain ⟨b, u, rfl⟩ := List.exists_cons_of_ne_nil hne
  have hlt : p.checkedIndex < p.readIndex := by rw [hchecked, hread]; exact Nat.succ_pos _
  have hbyte : p.loadBuf p.checkedIndex = .ok b := by
    rw [loadBuf_ok (by omega), hchecked, hget 0 (Nat.succ_pos _)]
    rfl
  rw [List.length_cons] at hread hlen
  by_cases hcr : b = cr
  · subst hcr
    cases u with
    | nil =>
      refine .inl ⟨rfl, ?_⟩
      have hline : p.parseLine = .ok (p, .lineOpen) := by
        rw [parseLine, if_pos hlt, hbyte, ok_bind, if_pos rfl, if_pos (by rw [hchecked, hread]; rfl)]
        rfl
      rw [parseContent, contentLoop, hline]
      rfl
    | cons b' u =>
      refine .inr ⟨by simp, ?_⟩
      rw [List.length_cons] at hread hlen
      have hbyte' : p.loadBuf (p.checkedIndex + 1) = .ok b' := by
        rw [loadBuf_ok (by omega), hchecked, hget 1 (by simp)]
        rfl
      by_cases hlf : b' = lf
      · subst hlf
        let q : Parser := { p with
          buffer := Function.update (Function.update p.buffer 0 0) 1 0
          checkedIndex := 2 }
        have hline : p.parseLine = .ok (q, .lineOk) := by
          rw [parseLine, if_pos hlt, hbyte, ok_bind, if_pos rfl, if_neg (by omega), hbyte', ok_bind, if_pos rfl,
            storeBuf_nat (by omega), ok_bind, storeBuf_nat (by simp only; omega), ok_bind]
          simp only [hchecked]
          rfl
        have hempty : TextAt bufferSize q.buffer 0 [] := ⟨by decide, nofun, nofun, rfl⟩
        have hreject := parseRequestline_empty
          (p := ⟨q.buffer, q.checkedIndex, q.readIndex, q.checkedIndex, .requestLine⟩) hempty
        refine ⟨⟨q.buffer, q.checkedIndex, q.readIndex, q.checkedIndex, .requestLine⟩, ?_⟩
        rw [parseContent, contentLoop, hline, ok_bind]
        simp only [show q.checkState = .requestLine from hstate, show q.startLine = 0 from hstart, hreject]
        rfl
      · refine ⟨p, parseContent_bad ?_⟩
        rw [parseLine, if_pos hlt, hbyte, ok_bind, if_pos rfl, if_neg (by omega), hbyte', ok_bind, if_neg hlf]
        rfl
  · refine .inr ⟨by simp [hcr], p, parseContent_bad ?_⟩
    by_cases hlf : b = lf
    · subst hlf
      rw [parseLine, if_pos hlt, hbyte, ok_bind, if_neg hcr, if_pos rfl, if_neg (by omega)]
      rfl
    · rw [parseLine, if_pos hlt, hbyte, ok_bind, if_neg hcr, if_neg hlf]
      rfl

end Parser

/-- The parsers have received the bytes `u` and wait. On the next piece `parse_content` rejects,
    unless only a carriage return has arrived. -/
theorem agreeOn_next (fs : FileSystem) (c : HttpConn) (hne : piece ≠ []) (hcr : u ++ piece ≠ [cr])
    (hlen : (u ++ piece).length < readBufferSize) :
    AgreeOn fs (Parser.init.append u) (c.init.append u) (piece :: ps) ↔ HttpConn.BadLine (u ++ piece) := by
  have hinv := (HttpConn.init_inv c).append (u ++ piece) (by simp only [HttpConn.init]; omega)
  have hpend : (c.init.append (u ++ piece)).pending = u ++ piece := by
    rw [HttpConn.pending_append (Nat.le_refl _), HttpConn.init_pending, List.nil_append]
  have hconn : (∃ c', (c.init.append (u ++ piece)).processRead fs = .ok (c', .badRequest) ∧
      ¬ HttpConn.Reaches fs (c.init.append (u ++ piece))) ↔ HttpConn.BadLine (u ++ piece) := by
    rw [HttpConn.processRead_rejects_iff hinv rfl, hpend]
  have hread : (c.init.append u).read [.data piece] = (c.init.append (u ++ piece), true) := by
    rw [HttpConn.append_append]
    refine HttpConn.read_data hne ?_
    rw [List.length_append] at hlen
    simp only [HttpConn.append, HttpConn.init]
    omega
  have hcap : (u ++ piece).length ≤ bufferSize := Nat.le_trans hlen.le readBufferSize_le
  obtain ⟨hone, -⟩ | ⟨-, p, hparse⟩ := Parser.parseContent_first (by simp [hne]) hcap
  · exact absurd hone hcr
  rw [Parser.append_append] at hparse
  rw [← hconn]
  constructor
  · rintro ⟨p', code, c₁, c', ret, hp, hr, hrun, hagree, -⟩
    cases hparse.symm.trans hp
    cases hread.symm.trans hr
    obtain ⟨rfl, hnot⟩ := hagree.2.1.mp rfl
    exact ⟨c', hrun, hnot⟩
  · rintro ⟨c', hrun, hnot⟩
    exact ⟨p, _, _, c', _, hparse, hread, hrun,
      ⟨iff_of_false (by rintro ⟨⟩) hnot, iff_of_true rfl ⟨rfl, hnot⟩,
        iff_of_false (by rintro ⟨⟩) (by rintro ⟨⟩)⟩, by rintro ⟨⟩⟩

/-- What makes the parsers agree on the pieces: nothing is decided before a line end, the line
    end comes first, or both reject the first line. -/
def Alike (ps : List (List UInt8)) : Prop :=
  ps = [] ∨ ps = [[cr]] ∨ [cr, lf] <+: ps.flatten ∨ ∃ p qs, ps = p :: qs ∧ HttpConn.BadLine p

theorem badLine_empty (u : List UInt8) : HttpConn.BadLine (cr :: lf :: u) :=
  (HttpConn.badLine_iff (l := []) (front_crlf (by simp) u)).mpr (by decide)

/-- A first line that begins with a carriage return is empty. -/
theorem badLine_cr_iff : HttpConn.BadLine (cr :: u) ↔ ∃ v, u = lf :: v := by
  constructor
  · rintro ⟨l, rest, hf, -⟩
    cases u with
    | nil => simp [front, isPlain] at hf
    | cons b v =>
      by_cases hb : b = lf
      · exact ⟨v, by rw [hb]⟩
      · simp [front, isPlain, hb] at hf
  · rintro ⟨v, rfl⟩
    exact badLine_empty v

/-- Behind a first carriage return both wait for the next piece. -/
theorem agreeOn_cr (fs : FileSystem) (c : HttpConn) :
    AgreeOn fs .init c.init ([cr] :: ps) ↔ AgreeOn fs (Parser.init.append [cr]) (c.init.append [cr]) ps := by
  have hinv := (HttpConn.init_inv c).append [cr] (by simp only [HttpConn.init]; decide)
  have hpend : (c.init.append [cr]).pending = [cr] := by
    rw [HttpConn.pending_append (Nat.le_refl _), HttpConn.init_pending, List.nil_append]
  have hfront : front (c.init.append [cr]).pending = .more [] := by rw [hpend]; decide
  obtain ⟨hbodies, hrun, -⟩ := HttpConn.readLoop_scan fs hinv (by rintro ⟨⟩) (.inl hfront) (readBufferSize + 1) .lineOk
  have hread : c.init.read [.data [cr]] = (c.init.append [cr], true) :=
    HttpConn.read_data (by simp) (by simp only [HttpConn.init]; decide)
  have hreach : ¬ (c.init.append [cr]).Reaches fs := by
    rintro ⟨d, hmem, -⟩
    rw [show HttpConn.readFuel = readBufferSize + 1 + 1 from rfl, hbodies] at hmem
    cases hmem
  obtain ⟨-, hparse⟩ | ⟨hne, -⟩ := Parser.parseContent_first (u := [cr]) (by simp) (by decide)
  swap
  · exact absurd rfl hne
  constructor
  · rintro ⟨p', code, c₁, c', ret, hp, hr, hrun', -, hrest⟩
    cases hparse.symm.trans hp
    cases hread.symm.trans hr
    cases hrun.symm.trans hrun'
    exact hrest rfl
  · intro hrest
    exact ⟨_, _, _, _, _, hparse, hread, hrun,
      ⟨iff_of_false (by rintro ⟨⟩) hreach, iff_of_false (by rintro ⟨⟩) (by rintro ⟨⟨⟩, -⟩),
        iff_of_true rfl rfl⟩, fun _ => hrest⟩

/-- The parsers agree exactly on these pieces. -/
theorem agreeOn_iff (fs : FileSystem) (c : HttpConn) (ps : List (List UInt8))
    (hps : ∀ p ∈ ps, p ≠ []) (hlen : ps.flatten.length < readBufferSize) :
    AgreeOn fs .init c.init ps ↔ Alike ps := by
  cases ps with
  | nil => exact iff_of_true trivial (.inl rfl)
  | cons p ps =>
    rw [List.forall_mem_cons] at hps
    rw [List.flatten_cons, List.length_append] at hlen
    by_cases hp : p = [cr]
    · subst hp
      rw [agreeOn_cr]
      cases ps with
      | nil => exact iff_of_true trivial (.inr (.inl rfl))
      | cons q ps =>
        obtain ⟨b, q, rfl⟩ := List.exists_cons_of_ne_nil (hps.2 q (by simp))
        simp only [List.flatten_cons, List.length_append, List.length_cons, List.length_nil] at hlen
        rw [agreeOn_next fs c (by simp) (by simp) (by simp only [List.singleton_append, List.length_cons]; omega),
          List.singleton_append, badLine_cr_iff]
        have hbad : ¬ HttpConn.BadLine [cr] := by
          rw [badLine_cr_iff]
          rintro ⟨v, hv⟩
          cases hv
        constructor
        · rintro ⟨v, hv⟩
          cases hv
          exact .inr (.inr (.inl ⟨q ++ ps.flatten, rfl⟩))
        · rintro (h | h | ⟨v, h⟩ | ⟨p', ps', h, hbad'⟩)
          · cases h
          · cases h
          · rw [List.flatten_cons, List.flatten_cons] at h
            cases h
            exact ⟨q, rfl⟩
          · cases h
            exact absurd hbad' hbad
    · have hnext : AgreeOn fs (Parser.init.append []) (c.init.append []) (p :: ps) ↔ HttpConn.BadLine ([] ++ p) :=
        agreeOn_next fs c hps.1 hp (by rw [List.nil_append]; omega)
      rw [List.nil_append, HttpConn.append_nil] at hnext
      refine hnext.trans ⟨fun hbad => .inr (.inr (.inr ⟨p, ps, rfl, hbad⟩)), ?_⟩
      rintro (h | h | h | ⟨p', ps', h, hbad⟩)
      · cases h
      · cases h
        exact absurd rfl hp
      · obtain ⟨b, p, rfl⟩ := List.exists_cons_of_ne_nil hps.1
        cases p with
        | nil =>
          rw [List.flatten_cons, List.singleton_append, List.cons_prefix_cons] at h
          exact absurd (by rw [h.1]) hp
        | cons b' p =>
          rw [List.flatten_cons, List.cons_append, List.cons_append, List.cons_prefix_cons,
            List.cons_prefix_cons] at h
          rw [← h.1, ← h.2.1]
          exact badLine_empty p
      · cases h
        exact hbad

/-- The parsers agree exactly on these pieces, and their line scanners exactly at the end of
    the bytes and at the bytes of a line end. -/
theorem parsers_agree_iff (fs : FileSystem) (c : HttpConn) (ps : List (List UInt8))
    (hps : ∀ p ∈ ps, p ≠ []) (hlen : ps.flatten.length < readBufferSize) :
    (AgreeOn fs .init c.init ps ↔ Alike ps) ∧
    ∀ (p : Parser) (d : HttpConn), p.buffer = d.readBuf → p.checkedIndex = d.checkedIdx →
      p.readIndex = d.readIdx → d.readIdx ≤ readBufferSize →
      (SameLine p d ↔
        d.readIdx ≤ d.checkedIdx ∨ d.readBuf d.checkedIdx = cr ∨ d.readBuf d.checkedIdx = lf) :=
  ⟨agreeOn_iff fs c ps hps hlen, fun _ _ => sameLine_iff⟩

theorem parsers_agree_cut :
    (AgreeOn ⟨fun _ => none, fun _ _ => -1⟩ .init HttpConn.blank.init [[cr], [lf]] ↔ Alike [[cr], [lf]]) ∧
    ∀ (p : Parser) (d : HttpConn), p.buffer = d.readBuf → p.checkedIndex = d.checkedIdx →
      p.readIndex = d.readIdx → d.readIdx ≤ readBufferSize →
      (SameLine p d ↔
        d.readIdx ≤ d.checkedIdx ∨ d.readBuf d.checkedIdx = cr ∨ d.readBuf d.checkedIdx = lf) :=
  parsers_agree_iff _ _ _ (by decide) (by decide)

/-- http_parse.cpp rejects a request that the other parser takes to `do_request`. -/
theorem parsers_disagree_get :
    ¬ AgreeOn ⟨fun _ => none, fun _ _ => -1⟩ .init HttpConn.blank.init [ascii "GET / HTTP/1.1\r\n\r\n"] := by
  rw [agreeOn_iff _ _ _ (by decide) (by decide)]
  rintro (h | h | h | ⟨p, qs, h, hbad⟩)
  · cases h
  · exact absurd h (by decide)
  · exact absurd h (by decide)
  · obtain ⟨rfl, -⟩ := List.cons.inj h
    have hf : front (ascii "GET / HTTP/1.1\r\n\r\n") = .line (ascii "GET / HTTP/1.1") [cr, lf] := by decide
    rw [HttpConn.badLine_iff hf] at hbad
    exact absurd hbad (by decide)

end HttpParse
