-- SUMMARY: What the header lines of a well-formed request leave in the connection object, and the exact condition under which that is what they say.
import LinuxLearning.HttpConn.Chunks

/-!
# The law of the header section

`HeaderLaw` is what a header section means: the length of the body, the wish to keep
the connection, the host, and whether a body is to be read. The code reads off the
last three as they are meant. It compares a header line with `Content-Length` and its
terminator, so no line with a value is recognised, and the body length stays 0.
-/

namespace Http

open Memory CString

/-- A line without line ends and NUL bytes. -/
structure PlainLine (l : List UInt8) : Prop where
  plain : ∀ b ∈ l, isPlain b
  nulFree : 0 ∉ l

/-- The header lines `hs` and the blank line. -/
def headerBytes : List (List UInt8) → List UInt8
  | [] => [cr, lf]
  | h :: hs => h ++ cr :: lf :: headerBytes hs

def requestBytes (rl : List UInt8) (hs : List (List UInt8)) : List UInt8 :=
  rl ++ cr :: lf :: headerBytes hs

/-- A valid request line, and header lines that are not blank. -/
structure WellFormed (rl : List UInt8) (hs : List (List UInt8)) : Prop where
  request : PlainLine rl
  target : (requestTarget rl).isSome
  headers : ∀ h ∈ hs, PlainLine h ∧ h ≠ []

/-- `PlainLine` as a check. -/
def isPlainLine (l : List UInt8) : Bool :=
  l.all fun b => isPlain b && b != 0

theorem PlainLine.of_check {l : List UInt8} (h : isPlainLine l) : PlainLine l := by
  simp only [isPlainLine, List.all_eq_true, Bool.and_eq_true, bne_iff_ne] at h
  exact ⟨fun b hb => (h b hb).1, fun h0 => (h 0 h0).2 rfl⟩

theorem WellFormed.of_check {rl : List UInt8} {hs : List (List UInt8)} (hrl : isPlainLine rl)
    (htarget : (requestTarget rl).isSome) (hhs : hs.all fun h => isPlainLine h && h != []) :
    WellFormed rl hs := by
  simp only [List.all_eq_true, Bool.and_eq_true, bne_iff_ne] at hhs
  exact ⟨.of_check hrl, htarget, fun h hh => ⟨.of_check (hhs h hh).1, (hhs h hh).2⟩⟩

/-! ## What a header line says -/

/-- The value of a `Content-Length:` line with blanks and digits. -/
def lengthValue (h : List UInt8) : Option Int :=
  let ds := (h.drop 15).dropWhile isBlank
  if caseEq (h.take 15) (ascii "Content-Length:") ∧ ds ≠ [] ∧ ds.all isdigit then
    some (decimal ds)
  else none

/-- A `Connection:` line with the value `keep-alive`. -/
def isKeepAlive (h : List UInt8) : Bool :=
  caseEq (h.take 11) (ascii "Connection:") &&
    caseEq ((h.drop 11).dropWhile isBlank) (ascii "keep-alive")

/-- The value of a `Host:` line. -/
def hostValue (h : List UInt8) : Option (List UInt8) :=
  if caseEq (h.take 5) (ascii "Host:") then some ((h.drop 5).dropWhile isBlank) else none

/-- The body length that the header lines announce. -/
def announcedLength (hs : List (List UInt8)) : Int :=
  (hs.filterMap lengthValue).getLast?.getD 0

/-- The host that the header lines name. -/
def namedHost (hs : List (List UInt8)) : Option (List UInt8) :=
  (hs.filterMap hostValue).getLast?

namespace HttpConn

variable {fs : FileSystem} {c c' d : HttpConn} {h rl : List UInt8} {gs hs : List (List UInt8)}

/-- `m_host` points to the string `v`, or is null. -/
def HostIs (c : HttpConn) : Option (List UInt8) → Prop
  | none => c.host = none
  | some v => ∃ i, c.host = some i ∧ TextAt readBufferSize c.readBuf i v

/-- The members say what the header lines `hs` say. -/
structure HeaderLaw (hs : List (List UInt8)) (c : HttpConn) : Prop where
  length : c.contentLength = announcedLength hs
  linger : c.linger = true ↔ ∃ h ∈ hs, isKeepAlive h
  host : c.HostIs (namedHost hs)
  state : c.checkState = .content ↔ c.contentLength ≠ 0

/-! ## One header line -/

/-- What the object knows after the header lines `gs`, all of them in front of
    `m_start_line`. -/
structure Told (gs : List (List UInt8)) (c : HttpConn) : Prop where
  length : c.contentLength = 0
  linger : c.linger = gs.any isKeepAlive
  host : match namedHost gs with
    | none => c.host = none
    | some v => ∃ i, c.host = some i ∧ i + v.length < c.startLine ∧ TextAt readBufferSize c.readBuf i v

/-- Two prefixes of a line, the shorter one a prefix of the longer one. -/
theorem caseEq_take {n m : Nat} {a b : List UInt8} (hn : caseEq (h.take n) a) (hm : caseEq (h.take m) b)
    (hle : m ≤ n) : (a.map tolower).take m = b.map tolower := by
  have hn' : (h.take n).map tolower = a.map tolower := eq_of_beq hn
  have hm' : (h.take m).map tolower = b.map tolower := eq_of_beq hm
  rw [← hn', ← List.map_take, List.take_take, Nat.min_eq_left hle, hm']

theorem cstr_of_nulFree (hl : 0 ∉ h) : cstr h = h := by
  rw [cstr, List.takeWhile_eq_self_iff]
  intro b hb
  simpa using fun e : b = 0 => hl (e ▸ hb)

/-- The line `Content-Length` has no value behind its terminator. -/
theorem lengthAfter_plain (hl : 0 ∉ h) : lengthAfter 0 h = 0 := by
  unfold lengthAfter
  rw [cstr_of_nulFree hl]
  split
  · rename_i hlen
    have hmap := congrArg List.length (eq_of_beq hlen)
    have hdrop : h.drop 15 = [] := List.drop_eq_nil_of_le (by simp [ascii] at hmap; omega)
    rw [hdrop]
    decide
  · rfl

/-- The branch for `Content-Length` is not taken by a line with another prefix. -/
theorem not_contentLength {n : Nat} {a : List UInt8} (ha : caseEq (h.take n) a)
    (hne : ((ascii "Content-Length").map tolower).take n ≠ a.map tolower) :
    ¬ caseEq h (ascii "Content-Length") := by
  intro hlen
  have hmap : h.map tolower = (ascii "Content-Length").map tolower := eq_of_beq hlen
  have ha' : (h.take n).map tolower = a.map tolower := eq_of_beq ha
  rw [List.map_take, hmap] at ha'
  exact hne ha'

theorem headerStep_linger (hl : 0 ∉ h) (hne : h ≠ []) (s : Nat) :
    (headerStep c s h).1.linger = (c.linger || isKeepAlive h) := by
  simp only [headerStep, cstr_of_nulFree hl, if_neg hne, isKeepAlive]
  by_cases hconn : caseEq (h.take 11) (ascii "Connection:")
  · rw [if_pos hconn, hconn]
    split
    · rename_i hval
      simp [hval]
    · rename_i hval
      simp [hval]
  · rw [if_neg hconn]
    repeat' split
    all_goals simp [hconn]

theorem headerStep_host (hl : 0 ∉ h) (hne : h ≠ []) (s : Nat) :
    (headerStep c s h).1.host = if caseEq (h.take 5) (ascii "Host:") then
      some (s + 5 + ((h.drop 5).takeWhile isBlank).length) else c.host := by
  simp only [headerStep, cstr_of_nulFree hl, if_neg hne]
  by_cases hhost : caseEq (h.take 5) (ascii "Host:")
  · have hconn : ¬ caseEq (h.take 11) (ascii "Connection:") := fun hconn =>
      absurd (caseEq_take hconn hhost (by decide)) (by decide)
    have hlen := not_contentLength hhost (by decide)
    simp only [if_neg hconn, if_neg hlen, if_pos hhost]
  · simp only [if_neg hhost]
    repeat' split
    all_goals rfl

theorem namedHost_concat (gs : List (List UInt8)) (h : List UInt8) :
    namedHost (gs ++ [h]) = (hostValue h).or (namedHost gs) := by
  unfold namedHost
  cases hv : hostValue h <;> simp [hv]

theorem Told.congr (ht : Told gs c) (hlen : c'.contentLength = c.contentLength)
    (hling : c'.linger = c.linger) (hhost : c'.host = c.host) (hstart : c.startLine ≤ c'.startLine)
    (hbuf : ∀ i, i < c.startLine → c'.readBuf i = c.readBuf i) : Told gs c' := by
  refine ⟨hlen.trans ht.length, hling.trans ht.linger, ?_⟩
  have hold := ht.host
  generalize namedHost gs = v at *
  cases v with
  | none => exact hhost.trans hold
  | some v =>
    obtain ⟨i, hi, hlt, htext⟩ := hold
    exact ⟨i, hhost.trans hi, by omega, htext.congr fun j _ hj => hbuf j (by omega)⟩

theorem takeLine_readBuf (c : HttpConn) (h : List UInt8) {i : Nat} (hi : i < c.startLine) :
    (c.takeLine h).readBuf i = c.readBuf i := by
  simp only [endLine]
  rw [Function.update_of_ne (by omega), Function.update_of_ne (by omega)]

/-- A header line is taken into account. -/
theorem Told.line (ht : Told gs c) (hinv : c.Inv) (hp : PlainLine h) (hne : h ≠ []) {rest : List UInt8}
    (hf : front c.pending = .line h rest) :
    Told (gs ++ [h]) (headerStep (c.takeLine h).nextLine c.startLine h).1 := by
  have hd := takeLine_step hinv hf
  have hnul := hp.nulFree
  have hsame := headerStep_same (c := (c.takeLine h).nextLine)
    (show cstr h ≠ [] by rwa [cstr_of_nulFree hnul]) c.startLine
  have hlen := headerStep_length (c := (c.takeLine h).nextLine) c.startLine h
  have hling := headerStep_linger (c := (c.takeLine h).nextLine) hnul hne c.startLine
  have hhost := headerStep_host (c := (c.takeLine h).nextLine) hnul hne c.startLine
  generalize (headerStep (c.takeLine h).nextLine c.startLine h).1 = c' at *
  have hstart : c'.startLine = c.startLine + h.length + 2 := by rw [hsame]; rfl
  have hbuf : c'.readBuf = (c.takeLine h).readBuf := by rw [hsame]; rfl
  refine ⟨?_, ?_, ?_⟩
  · rw [hlen]
    exact (congrArg (lengthAfter · h) ht.length).trans (lengthAfter_plain hnul)
  · rw [hling, List.any_append, ← ht.linger]
    simp [nextLine, endLine]
  · rw [namedHost_concat]
    by_cases h5 : caseEq (h.take 5) (ascii "Host:")
    · have hlen5 := length_le_of_caseEq_take h5 (by decide)
      have htext := hd.line.text
      rw [cstr_of_nulFree hnul] at htext
      have hval := (htext.drop hlen5).dropWhile isBlank
      have hsum := congrArg List.length (List.takeWhile_append_dropWhile (p := isBlank) (l := h.drop 5))
      rw [List.length_append, List.length_drop] at hsum
      rw [if_pos h5] at hhost
      simp only [hostValue, if_pos h5, Option.some_or]
      exact ⟨_, hhost, by omega, hbuf ▸ hval⟩
    · rw [if_neg h5] at hhost
      simp only [hostValue, if_neg h5, Option.none_or]
      have hold : Told gs { c' with contentLength := c.contentLength, linger := c.linger } :=
        ht.congr rfl rfl hhost (by simp only [hstart]; omega)
          fun i hi => by simp only [hbuf]; exact takeLine_readBuf c h hi
      exact hold.host

/-! ## The URL -/

/-- `m_url` points to the string `p` in front of `m_start_line`. -/
def Aimed (p : List UInt8) (c : HttpConn) : Prop :=
  ∃ u, c.url = some u ∧ u + p.length < c.startLine ∧ TextAt readBufferSize c.readBuf u p

theorem Aimed.congr {p : List UInt8} (ha : Aimed p c) (hurl : c'.url = c.url)
    (hstart : c.startLine ≤ c'.startLine) (hbuf : ∀ i, i < c.startLine → c'.readBuf i = c.readBuf i) :
    Aimed p c' := by
  obtain ⟨u, hu, hlt, htext⟩ := ha
  exact ⟨u, hurl.trans hu, by omega, htext.congr fun i _ hi => hbuf i (by omega)⟩

/-! ## The header section -/

/-- How a well-formed header section ends: in a lookup of `p`, with `extra` left. -/
structure Looked (fs : FileSystem) (p extra : List UInt8) (c c' : HttpConn) (code : HttpCode) : Prop where
  header : c'.checkState = .header
  pending : c'.pending = extra
  opened : ∃ d, openStep fs d (pathOf p) = (c', code)
  writeIdx : c'.writeIdx = c.writeIdx

/-- The header lines are read one by one, and the blank line completes the request. -/
theorem reads_headers (fs : FileSystem) {p extra : List UInt8} (hinv : c.Inv) (hst : c.checkState = .header)
    (ht : Told gs c) (ha : Aimed p c) (hhs : ∀ h ∈ hs, PlainLine h ∧ h ≠ [])
    (hpend : c.pending = headerBytes hs ++ extra) :
    ∃ c' code, Reads fs c (c', code) ∧ code ≠ .noRequest ∧ Told (gs ++ hs) c' ∧
      Looked fs p extra c c' code := by
  induction hs generalizing c gs with
  | nil =>
    have hf : front c.pending = .line [] extra := by
      rw [hpend]
      exact front_crlf (l := []) (by simp) extra
    have hd := takeLine_step hinv hf
    have hds : (c.takeLine []).checkState = .header := hst
    obtain ⟨c', next, hrun, hstep, hnext⟩ := onHeader_blank fs hd.inv.nextLine hds hd.line rfl
    rcases hnext with ⟨-, code, rfl, hcode, hreq⟩ | ⟨hne, -⟩
    · have hbody : (c.takeLine []).loopBody fs = .ok (c', .ret code) := by simp only [loopBody, hds, hrun]
      have hle : c.startLine ≤ (c.takeLine []).nextLine.startLine := by
        simp only [nextLine, endLine]
        omega
      obtain ⟨u, hu, -, htext⟩ : Aimed p (c.takeLine []).nextLine :=
        ha.congr rfl hle fun i hi => takeLine_readBuf c [] hi
      have hopen := (doRequest_text fs hu htext hd.inv.realFile).symm.trans hreq
      obtain ⟨m, st, a, hsame⟩ := doRequest_same fs _ hreq
      obtain rfl : c' = _ := hsame
      rw [List.append_nil]
      exact ⟨_, code, .ret hf hbody, hcode, ht.congr rfl rfl rfl hle fun i hi => takeLine_readBuf c [] hi,
        hst, hd.rest, ⟨_, Except.ok.inj hopen⟩, rfl⟩
    · exact absurd ht.length hne
  | cons h hs ih =>
    rw [List.forall_mem_cons] at hhs
    obtain ⟨⟨hp, hne⟩, hhs⟩ := hhs
    have hf : front c.pending = .line h (headerBytes hs ++ extra) := by
      rw [hpend, headerBytes, List.append_assoc]
      exact front_crlf hp.plain _
    have hcstr : cstr h ≠ [] := by rwa [cstr_of_nulFree hp.nulFree]
    obtain ⟨c', hc', hbody, hinv', -, hpend', hst'⟩ := loopBody_header fs (takeLine_step hinv hf) hst hcstr
    have hsame := headerStep_same (c := (c.takeLine h).nextLine) hcstr c.startLine
    have hkeep : c' = (headerStep (c.takeLine h).nextLine c.startLine h).1 := hc'
    have ht' : Told (gs ++ [h]) c' := hc' ▸ ht.line hinv hp hne hf
    have ha' : Aimed p c' := by
      refine ha.congr ?_ ?_ fun i hi => ?_
      · rw [hkeep, hsame]; rfl
      · rw [hkeep, hsame]; simp only [nextLine, endLine]; omega
      · rw [hkeep, hsame]; exact takeLine_readBuf c h hi
    obtain ⟨e, code, hr, hcode, htold, hlook⟩ := ih hinv' hst' ht' ha' hhs hpend'
    have hwrite : c'.writeIdx = c.writeIdx := by rw [hkeep, hsame]; rfl
    exact ⟨e, code, .next hf hbody (by rw [hst']; decide) hr, hcode, by simpa using htold,
      { hlook with writeIdx := hlook.writeIdx.trans hwrite }⟩

/-- A well-formed request is read to its blank line, whatever follows it. -/
theorem reads_request (fs : FileSystem) (c : HttpConn) (hw : WellFormed rl hs) {p : List UInt8}
    (hp : requestTarget rl = some p) (extra : List UInt8)
    (hlen : (requestBytes rl hs ++ extra).length < readBufferSize) :
    ∃ c' code, Reads fs (c.init.append (requestBytes rl hs ++ extra)) (c', code) ∧ code ≠ .noRequest ∧
      Told hs c' ∧ Looked fs p extra c.init c' code := by
  have hinv := (init_inv c).append (requestBytes rl hs ++ extra) (by simp only [init]; omega)
  have hpend := pending_append (c := c.init) (Nat.le_refl _) (requestBytes rl hs ++ extra)
  rw [init_pending, List.nil_append] at hpend
  have htold : Told [] (c.init.append (requestBytes rl hs ++ extra)) := ⟨rfl, rfl, rfl⟩
  have hst : (c.init.append (requestBytes rl hs ++ extra)).checkState = .requestLine := rfl
  have hidx : (c.init.append (requestBytes rl hs ++ extra)).writeIdx = c.init.writeIdx := rfl
  generalize c.init.append (requestBytes rl hs ++ extra) = d at *
  have hf : front d.pending = .line rl (headerBytes hs ++ extra) := by
    rw [hpend, requestBytes, List.append_assoc]
    exact front_crlf hw.request.plain _
  have hd := takeLine_step hinv hf
  obtain ⟨c', hc', hbody, hinv', -, hpend', hhead⟩ := loopBody_request fs hd hst
  obtain ⟨-, hstep⟩ := requestLineStep_text (c := (d.takeLine rl).nextLine) hd.line.text
  rw [cstr_of_nulFree hw.request.nulFree] at hc' hbody hhead hstep
  rw [if_pos hw.target] at hbody
  have hst' := hhead hw.target
  have ht' : Told [] c' := by
    rw [hc', hstep.same]
    exact ⟨htold.length, htold.linger, htold.host⟩
  have ha' : Aimed p c' := by
    obtain ⟨-, u, hu, -, hend, htext⟩ := hstep.accept p hp
    have hstart : c'.startLine = d.startLine + rl.length + 2 := by rw [hc', hstep.same]; rfl
    have hline : (d.takeLine rl).startLine = d.startLine := rfl
    exact ⟨u, hc' ▸ hu, by rw [hstart]; omega, hc' ▸ htext⟩
  obtain ⟨e, code, hr, hcode, htold', hlook⟩ := reads_headers fs hinv' hst' ht' ha' hw.headers hpend'
  have hwrite : c'.writeIdx = d.writeIdx := by rw [hc', hstep.same]; rfl
  exact ⟨e, code, .next hf hbody (by rw [hst']; decide) hr, hcode, by simpa using htold',
    { hlook with writeIdx := hlook.writeIdx.trans (hwrite.trans hidx) }⟩

/-- A well-formed request that arrives in pieces has its header section read as it is
    meant exactly when it announces the body length 0. -/
theorem headerLaw_iff (fs : FileSystem) (c : HttpConn) {rl : List UInt8} {hs : List (List UInt8)}
    (hw : WellFormed rl hs) {ps : List (List UInt8)} (hps : ∀ p ∈ ps, p ≠ [])
    (hreq : requestBytes rl hs <+: ps.flatten) (hlen : ps.flatten.length < readBufferSize) :
    ∃ c' code, serve fs c.init ps = .ok (c', code) ∧ (HeaderLaw hs c' ↔ announcedLength hs = 0) := by
  obtain ⟨extra, hextra⟩ := hreq
  obtain ⟨p, hp⟩ := Option.isSome_iff_exists.mp hw.target
  obtain ⟨d, code, hr, -, htold, hlook⟩ := reads_request fs c hw hp extra (by rw [hextra]; exact hlen)
  rw [hextra] at hr
  obtain ⟨c', q, hserve, hinv, rfl⟩ := serve_reads (init_inv c) nofun (init_waits fs c) hps
    (by simp only [init]; omega) hr
  have htold' : Told hs c' := by
    have hle := le_trans hinv.start_le hinv.checked_le
    exact htold.congr rfl rfl rfl (le_refl _) fun i hi => (append_of_lt q (lt_of_lt_of_le hi hle)).symm
  have hstate : c'.checkState = .header := hlook.header
  refine ⟨c', code, hserve, fun h => h.length.symm.trans htold'.length, fun h => ?_⟩
  refine ⟨htold'.length.trans h.symm, ?_, ?_, ?_⟩
  · rw [htold'.linger, List.any_eq_true]
  · have hhost := htold'.host
    generalize namedHost hs = v at *
    cases v with
    | none => exact hhost
    | some v =>
      obtain ⟨i, hi, -, htext⟩ := hhost
      exact ⟨i, hi, htext⟩
  · rw [hstate, htold'.length]
    decide

theorem headerLaw_keepAlive :
    ∃ c' code, serve ⟨fun _ => none, fun _ _ => -1⟩ blank.init
        [ascii "GET / HTTP/1.1\r\nConnection: keep", ascii "-alive\r\n\r\n"] = .ok (c', code) ∧
      (HeaderLaw [ascii "Connection: keep-alive"] c' ↔
        announcedLength [ascii "Connection: keep-alive"] = 0) :=
  have hwell : WellFormed (ascii "GET / HTTP/1.1") [ascii "Connection: keep-alive"] :=
    .of_check (by decide) (by decide) (by decide)
  headerLaw_iff _ _ hwell (by decide) (by decide) (by decide)

/-- The length of a body is not recognised. -/
theorem contentLength_ignored :
    ¬ ∃ c' code, serve ⟨fun _ => none, fun _ _ => -1⟩ blank.init
        [ascii "GET / HTTP/1.1\r\nContent-Length: 5\r\n\r\n"] = .ok (c', code) ∧
      HeaderLaw [ascii "Content-Length: 5"] c' := by
  rintro ⟨c', code, hserve, hlaw⟩
  have hlen : (serve ⟨fun _ => none, fun _ _ => -1⟩ blank.init
      [ascii "GET / HTTP/1.1\r\nContent-Length: 5\r\n\r\n"]).toOption.map (·.1.contentLength) = some 0 := by
    decide +kernel
  rw [hserve] at hlen
  have hnone : c'.contentLength = 0 := Option.some.inj hlen
  have hfive : announcedLength [ascii "Content-Length: 5"] = 5 := by decide
  have hzero := hlaw.length
  rw [hnone, hfive] at hzero
  exact absurd hzero (by decide)

end HttpConn

end Http
