-- SUMMARY: Whether a prepared response is one well-framed HTTP response, and the exact file sizes for which it is.
import LinuxLearning.HttpConn.Write
import LinuxLearning.HttpConn.LineScan

/-!
# The framing of a response

A response is well framed if its `Content-Length` header gives the number of bytes
behind its blank line. `process_write` prints a response text by text, so what it
prints is the concatenation of the texts as long as they fit. They always do: the one
text of unknown length is a decimal number of 32 bits.
-/

namespace Http

open Memory CString

/-- `HTTP/1.1`, a code of three digits and a title. -/
def IsStatusLine (l : List UInt8) : Prop :=
  ∃ code title, l = ascii "HTTP/1.1 " ++ code ++ ascii " " ++ title ∧ code.length = 3 ∧
    code.all isdigit ∧ ∀ b ∈ title, isPlain b

/-- One response with its body, which is to keep the connection or to close it. -/
def WellFramed (linger : Bool) (out : List UInt8) : Prop :=
  ∃ status digits body, IsStatusLine status ∧ digits ≠ [] ∧ digits.all isdigit ∧
    decimal digits = body.length ∧
    out = status ++ cr :: lf :: (ascii "Content-Length: " ++ digits ++ cr :: lf ::
      (ascii "Connection: " ++ (if linger then ascii "keep-alive" else ascii "close") ++
        cr :: lf :: cr :: lf :: body))

/-! ## Decimal numbers -/

theorem printInt_nat (n : Nat) : printInt n = (Nat.toDigits 10 n).map fun d => d.toNat.toUInt8 := by
  rw [printInt, if_neg (by omega)]
  rfl

theorem decimal_digits {ds : List Char} (hds : ∀ d ∈ ds, d.isDigit) (m : Nat) :
    (ds.map fun d => d.toNat.toUInt8).foldl (fun (v : Int) b => 10 * v + (b.toNat - 48 : Int)) m =
      (Nat.ofDigitChars 10 ds m : Nat) := by
  induction ds generalizing m with
  | nil => simp
  | cons d ds ih =>
    rw [List.forall_mem_cons] at hds
    have hval := (digit_toUInt8 hds.1).2
    have hd := hds.1
    simp only [Char.isDigit, Bool.and_eq_true, decide_eq_true_eq] at hd
    have hlo : 48 ≤ d.toNat := hd.1
    rw [List.map_cons, List.foldl_cons, Nat.ofDigitChars_cons, ← ih hds.2, hval]
    congr 1
    push_cast
    omega

/-- A natural number is printed as digits that read back as it. -/
theorem decimal_printInt (n : Nat) :
    printInt n ≠ [] ∧ (printInt n).all isdigit ∧ decimal (printInt n) = n := by
  have hdig : ∀ d ∈ Nat.toDigits 10 n, d.isDigit :=
    fun d hd => Nat.isDigit_of_mem_toDigits (by decide) (by decide) hd
  rw [printInt_nat]
  refine ⟨?_, ?_, ?_⟩
  · simp
  · rw [List.all_eq_true]
    intro b hb
    obtain ⟨d, hd, rfl⟩ := List.mem_map.mp hb
    exact (digit_toUInt8 (hdig d hd)).1
  · have := decimal_digits hdig 0
    rw [Nat.ofDigitChars_ten_toDigits] at this
    exact this

/-- The number of an `int` in at most 11 characters. -/
theorem printInt_length {v : Int} (hlo : intMin ≤ v) (hhi : v ≤ intMax) : (printInt v).length ≤ 11 := by
  have hlen : (Nat.toDigits 10 v.natAbs).length ≤ 10 := by
    rw [Nat.length_toDigits_le_iff (by decide) (by decide)]
    simp only [intMin, intMax] at hlo hhi
    omega
  rw [printInt, List.length_append, List.length_map]
  split
  · simp only [List.length_singleton]
    omega
  · simp only [List.length_nil]
    omega

namespace HttpConn

variable {c d : HttpConn} {out : List UInt8} {ts : List (List UInt8)}

/-! ## Printing text by text -/

/-- What `process_write` hands to `add_response` for the head of a response. -/
def headTexts (linger : Bool) (status : Int) (title : List UInt8) (contentLen : Int) : List (List UInt8) :=
  [ascii "HTTP/1.1" ++ ascii " " ++ printInt status ++ ascii " " ++ title ++ ascii "\r\n",
    ascii "Content-Length: " ++ printInt contentLen ++ ascii "\r\n",
    ascii "Connection: " ++ (if linger then ascii "keep-alive" else ascii "close") ++ ascii "\r\n",
    ascii "\r\n"]

def pageTexts (linger : Bool) (status : Int) (title form : List UInt8) : List (List UInt8) :=
  headTexts linger status title form.length ++ [form]

/-- The texts that `process_write` hands to `add_response`, in this order. -/
def responseTexts (c : HttpConn) : HttpCode → List (List UInt8)
  | .internalError => pageTexts c.linger 500 error500Title error500Form
  | .badRequest => pageTexts c.linger 400 error400Title error400Form
  | .noResource => pageTexts c.linger 404 error404Title error404Form
  | .forbiddenRequest => pageTexts c.linger 403 error403Title error403Form
  | .fileRequest =>
    if c.fileStat.size ≠ 0 then headTexts c.linger 200 ok200Title (toInt32 c.fileStat.size)
    else pageTexts c.linger 200 ok200Title okString
  | .noRequest | .getRequest | .closedConnection => []

/-- The object after the texts `ts`. -/
def printAll (c : HttpConn) (ts : List (List UInt8)) : HttpConn :=
  ts.foldl (fun c t => (c.addResponse t).1) c

/-- Printing changes the write buffer and its index only. -/
theorem addResponse_same (c : HttpConn) (out : List UInt8) : ∃ m k,
    (c.addResponse out).1 = { c with writeBuf := m, writeIdx := k } := by
  unfold addResponse
  split
  · exact ⟨_, _, rfl⟩
  · dsimp only
    split <;> exact ⟨_, _, rfl⟩

theorem printAll_same (c : HttpConn) (ts : List (List UInt8)) : ∃ m k,
    printAll c ts = { c with writeBuf := m, writeIdx := k } := by
  induction ts generalizing c with
  | nil => exact ⟨_, _, rfl⟩
  | cons t ts ih =>
    obtain ⟨m, k, h⟩ := addResponse_same c t
    obtain ⟨m', k', h'⟩ := ih (c.addResponse t).1
    refine ⟨m', k', ?_⟩
    rw [printAll, List.foldl_cons]
    rw [printAll, h] at h'
    rw [h, h']

theorem addResponse_linger (c : HttpConn) (out : List UInt8) : (c.addResponse out).1.linger = c.linger := by
  obtain ⟨m, k, h⟩ := addResponse_same c out
  rw [h]

theorem errorResponse_eq (c : HttpConn) (status : Int) (title form : List UInt8) :
    c.errorResponse status title form =
      sendPage ((printAll c (headTexts c.linger status title form.length)).addResponse form) := by
  simp only [errorResponse, printAll, headTexts, addHeaders, addStatusLine, addContentLength, addLinger,
    addBlankLine, addContent, List.foldl_cons, List.foldl_nil, addResponse_linger]

theorem fileResponse_eq (c : HttpConn) :
    c.fileResponse = if c.fileStat.size ≠ 0 then
      ((printAll c (headTexts c.linger 200 ok200Title (toInt32 c.fileStat.size))).bufferAndFile, true)
    else (printAll c (pageTexts c.linger 200 ok200Title okString), false) := by
  obtain ⟨m, k, h⟩ := addResponse_same c
    (ascii "HTTP/1.1" ++ ascii " " ++ printInt 200 ++ ascii " " ++ ok200Title ++ ascii "\r\n")
  have hstat : (c.addStatusLine 200 ok200Title).1.fileStat = c.fileStat := by
    rw [addStatusLine, h]
  simp only [fileResponse, hstat]
  split <;> simp only [printAll, pageTexts, headTexts, addHeaders, addStatusLine, addContentLength,
    addLinger, addBlankLine, addContent, List.cons_append, List.nil_append, List.foldl_cons,
    List.foldl_nil, addResponse_linger]

theorem printAll_concat (c : HttpConn) (ts : List (List UInt8)) (t : List UInt8) :
    printAll c (ts ++ [t]) = ((printAll c ts).addResponse t).1 := by
  simp only [printAll, List.foldl_append, List.foldl_cons, List.foldl_nil]

theorem sendPage_prints (r : HttpConn × Bool) :
    (sendPage r).1.writeBuf = r.1.writeBuf ∧ (sendPage r).1.writeIdx = r.1.writeIdx := by
  unfold sendPage
  split <;> exact ⟨rfl, rfl⟩

/-- A response is an error page, the answer to a file, or none at all. -/
theorem processWrite_cases (c : HttpConn) (ret : HttpCode) :
    (∃ status title form, c.processWrite ret = c.errorResponse status title form ∧
        responseTexts c ret = pageTexts c.linger status title form) ∨
      ret = .fileRequest ∨ (c.processWrite ret).1 = c ∧ responseTexts c ret = [] := by
  cases ret with
  | internalError | badRequest | noResource | forbiddenRequest => exact .inl ⟨_, _, _, rfl, rfl⟩
  | fileRequest => exact .inr (.inl rfl)
  | noRequest | getRequest | closedConnection => exact .inr (.inr ⟨rfl, rfl⟩)

/-- What `process_write` leaves in the write buffer is what the texts leave there. -/
theorem processWrite_prints (c : HttpConn) (ret : HttpCode) :
    (c.processWrite ret).1.writeBuf = (printAll c (responseTexts c ret)).writeBuf ∧
      (c.processWrite ret).1.writeIdx = (printAll c (responseTexts c ret)).writeIdx := by
  obtain ⟨status, title, form, hw, ht⟩ | rfl | ⟨hw, ht⟩ := processWrite_cases c ret
  · rw [hw, ht, errorResponse_eq, pageTexts, printAll_concat]
    exact sendPage_prints _
  · have hfile : ∀ d : HttpConn, d.bufferAndFile.writeBuf = d.writeBuf ∧ d.bufferAndFile.writeIdx = d.writeIdx :=
      fun _ => ⟨rfl, rfl⟩
    rw [processWrite, fileResponse_eq, responseTexts]
    by_cases hne : c.fileStat.size ≠ 0
    · rw [if_pos hne, if_pos hne]
      exact hfile _
    · rw [if_neg hne, if_neg hne]
      exact ⟨rfl, rfl⟩
  · rw [hw, ht]
    exact ⟨rfl, rfl⟩

/-- What `process_write` may change. -/
theorem processWrite_same (c : HttpConn) (ret : HttpCode) : ∃ m k v w n,
    (c.processWrite ret).1 = { c with writeBuf := m, writeIdx := k, iv0 := v, iv1 := w, ivCount := n } := by
  obtain ⟨status, title, form, hw, -⟩ | rfl | ⟨hw, -⟩ := processWrite_cases c ret
  · obtain ⟨m, k, h⟩ := printAll_same c (pageTexts c.linger status title form)
    rw [pageTexts, printAll_concat] at h
    rw [hw, errorResponse_eq, sendPage]
    split
    · rw [h]
      exact ⟨_, _, _, _, _, rfl⟩
    · rw [h]
      exact ⟨_, _, _, _, _, rfl⟩
  · rw [processWrite, fileResponse_eq]
    by_cases hne : c.fileStat.size ≠ 0
    · rw [if_pos hne]
      obtain ⟨m, k, h⟩ := printAll_same c (headTexts c.linger 200 ok200Title (toInt32 c.fileStat.size))
      rw [h]
      exact ⟨_, _, _, _, _, rfl⟩
    · rw [if_neg hne]
      obtain ⟨m, k, h⟩ := printAll_same c (pageTexts c.linger 200 ok200Title okString)
      rw [h]
      exact ⟨_, _, _, _, _, rfl⟩
  · rw [hw]
    exact ⟨_, _, _, _, _, rfl⟩

/-! ## What fits -/

/-- The index stays below the size of the buffer, and the memory behind it untouched. -/
structure InsideBuf (c d : HttpConn) : Prop where
  idx : d.writeIdx < writeBufferSize
  outside : ∀ i, writeBufferSize ≤ i → d.writeBuf i = c.writeBuf i

theorem InsideBuf.addResponse (h : InsideBuf c d) (out : List UInt8) : InsideBuf c (d.addResponse out).1 := by
  have hidx := h.idx
  have hkeep : ∀ i, writeBufferSize ≤ i →
      vsnprintf d.writeBuf d.writeIdx (writeBufferSize - 1 - d.writeIdx) out i = c.writeBuf i := by
    intro i hi
    rw [← h.outside i hi, vsnprintf]
    split
    · rfl
    · rw [blit_apply, dif_neg]
      rw [List.length_append, List.length_take, List.length_singleton]
      omega
  unfold HttpConn.addResponse
  rw [if_neg (by omega)]
  dsimp only
  split
  · exact ⟨hidx, hkeep⟩
  · exact ⟨by simp only; omega, hkeep⟩

theorem InsideBuf.printAll (h : InsideBuf c d) (ts : List (List UInt8)) : InsideBuf c (printAll d ts) := by
  induction ts generalizing d with
  | nil => exact h
  | cons t ts ih => exact ih (h.addResponse t)

/-- A text that fits is appended, and the call reports it. -/
theorem addResponse_fits (c : HttpConn) (out : List UInt8) (h : c.writeIdx + out.length < writeBufferSize - 1) :
    (c.addResponse out).2 = true ∧ (c.addResponse out).1.writeIdx = c.writeIdx + out.length ∧
      (c.addResponse out).1.text = c.text ++ out := by
  have htext := addResponse_text c out
  rw [if_pos h] at htext
  have hroom : ¬ writeBufferSize ≤ c.writeIdx := by omega
  have hsize : ¬ writeBufferSize - 1 - c.writeIdx ≤ out.length := by omega
  refine ⟨?_, ?_, htext⟩ <;> simp only [addResponse, if_neg hroom, if_neg hsize]

theorem printAll_fits (c : HttpConn) (ts : List (List UInt8))
    (h : c.writeIdx + ts.flatten.length < writeBufferSize - 1) :
    (printAll c ts).writeIdx = c.writeIdx + ts.flatten.length ∧
      (printAll c ts).text = c.text ++ ts.flatten := by
  induction ts generalizing c with
  | nil => exact ⟨rfl, (List.append_nil _).symm⟩
  | cons t ts ih =>
    rw [List.flatten_cons, List.length_append] at h
    obtain ⟨-, hidx, htext⟩ := addResponse_fits c t (by omega)
    obtain ⟨hidx', htext'⟩ := ih (c.addResponse t).1 (by omega)
    rw [printAll, List.foldl_cons, List.flatten_cons, List.length_append]
    exact ⟨by rw [← Nat.add_assoc, ← hidx]; exact hidx', by rw [← List.append_assoc, ← htext]; exact htext'⟩

theorem headTexts_length {status n : Int} (linger : Bool) (title : List UInt8)
    (hstatus : (printInt status).length = 3) (hlo : intMin ≤ n) (hhi : n ≤ intMax) :
    (headTexts linger status title n).flatten.length ≤ 70 + title.length := by
  have hn := printInt_length hlo hhi
  have hling : (if linger then ascii "keep-alive" else ascii "close").length ≤ 10 := by
    cases linger <;> decide
  have h1 : (ascii "HTTP/1.1").length = 8 := by decide
  have h2 : (ascii " ").length = 1 := by decide
  have h3 : (ascii "\r\n").length = 2 := by decide
  have h4 : (ascii "Content-Length: ").length = 16 := by decide
  have h5 : (ascii "Connection: ").length = 12 := by decide
  simp only [headTexts, List.flatten_cons, List.flatten_nil, List.length_append, List.length_nil]
  omega

/-! ## Well-framed responses -/

/-- A head is four lines, the last of them blank. -/
theorem headTexts_lines (linger : Bool) (status n : Int) (title body : List UInt8) :
    (headTexts linger status title n).flatten ++ body =
      (ascii "HTTP/1.1 " ++ printInt status ++ ascii " " ++ title) ++ cr :: lf ::
        (ascii "Content-Length: " ++ printInt n ++ cr :: lf ::
          (ascii "Connection: " ++ (if linger then ascii "keep-alive" else ascii "close") ++
            cr :: lf :: cr :: lf :: body)) := by
  have hcrlf : ascii "\r\n" = [cr, lf] := by decide
  have hblank : ascii "HTTP/1.1 " = ascii "HTTP/1.1" ++ ascii " " := by decide
  simp only [headTexts, hcrlf, hblank, List.flatten_cons, List.flatten_nil, List.append_assoc,
    List.cons_append, List.nil_append, List.append_nil]

/-- What a status code is printed as. -/
def IsCode (status : Int) : Prop :=
  (printInt status).length = 3 ∧ (printInt status).all isdigit

instance : DecidablePred IsCode := fun _ => inferInstanceAs (Decidable (_ ∧ _))

theorem wellFramed_head {status : Int} {title : List UInt8} (linger : Bool) (hstatus : IsCode status)
    (ht : ∀ b ∈ title, isPlain b) (body : List UInt8) :
    WellFramed linger ((headTexts linger status title body.length).flatten ++ body) := by
  obtain ⟨hne, hall, hval⟩ := decimal_printInt body.length
  exact ⟨_, printInt body.length, body,
    ⟨printInt status, title, rfl, hstatus.1, hstatus.2, ht⟩, hne, hall, hval,
    headTexts_lines linger status body.length title body⟩

theorem isPlain_of_isdigit {b : UInt8} (hb : isdigit b) : isPlain b := by
  simp only [isdigit, Bool.and_eq_true, decide_eq_true_eq, UInt8.le_iff_toNat_le] at hb
  have hne : b ≠ cr ∧ b ≠ lf := by
    constructor <;> (rintro rfl; exact absurd hb.1 (by decide))
  simp [isPlain, hne.1, hne.2]

theorem printInt_isPlain (v : Int) : ∀ b ∈ printInt v, isPlain b := by
  intro b hb
  rw [printInt, List.mem_append, List.mem_map] at hb
  rcases hb with hb | ⟨d, hd, rfl⟩
  · split at hb
    · rw [List.mem_singleton.mp hb]
      decide
    · exact absurd hb List.not_mem_nil
  · exact isPlain_of_isdigit (digit_toUInt8 (Nat.isDigit_of_mem_toDigits (by decide) (by decide) hd)).1

/-- A line ends at its first line end. -/
theorem line_inj {l l' r r' : List UInt8} (hl : ∀ b ∈ l, isPlain b) (hl' : ∀ b ∈ l', isPlain b)
    (h : l ++ cr :: lf :: r = l' ++ cr :: lf :: r') : l = l' ∧ r = r' := by
  have hf := front_crlf hl r
  rw [h, front_crlf hl' r'] at hf
  cases hf
  exact ⟨rfl, rfl⟩

/-- The lines of a head can be read off in one way only, so a well-framed response
    announces the length of what follows its head. -/
theorem wellFramed_announced {linger : Bool} {status n : Int} {title body : List UInt8}
    (ht : ∀ b ∈ title, isPlain b)
    (hw : WellFramed linger ((headTexts linger status title n).flatten ++ body)) : n = body.length := by
  obtain ⟨_, digits, body', ⟨code, title', rfl, -, hcode, ht'⟩, hne, hall, hval, hout⟩ := hw
  rw [headTexts_lines] at hout
  rw [List.all_eq_true] at hcode hall
  have hplain : ∀ {a b : List UInt8}, (∀ x ∈ a, isPlain x) → (∀ x ∈ b, isPlain x) →
      ∀ x ∈ a ++ b, isPlain x := fun ha hb x hx => (List.mem_append.mp hx).elim (ha x) (hb x)
  have hconn : ∀ b ∈ ascii "Connection: " ++ (if linger then ascii "keep-alive" else ascii "close"),
      isPlain b := by
    cases linger <;> exact plain_of_all (by decide)
  obtain ⟨-, hout⟩ := line_inj
    (hplain (hplain (hplain (plain_of_all (by decide)) (printInt_isPlain status)) (plain_of_all (by decide))) ht)
    (hplain (hplain (hplain (plain_of_all (by decide)) fun b hb => isPlain_of_isdigit (hcode b hb))
      (plain_of_all (by decide))) ht') hout
  obtain ⟨hdig, hout⟩ := line_inj (hplain (plain_of_all (by decide)) (printInt_isPlain n))
    (hplain (plain_of_all (by decide)) fun b hb => isPlain_of_isdigit (hall b hb)) hout
  obtain ⟨-, hout⟩ := line_inj hconn hconn hout
  obtain rfl : printInt n = digits := List.append_cancel_left hdig
  obtain rfl : body = body' := by simpa using hout
  have hpos : 0 ≤ n := by
    by_contra hneg
    have hminus : (45 : UInt8) ∈ printInt n := by
      rw [printInt, if_pos (by omega)]
      simp
    exact absurd (hall _ hminus) (by decide)
  obtain ⟨k, rfl⟩ := Int.eq_ofNat_of_zero_le hpos
  rw [← hval]
  exact ((decimal_printInt k).2.2).symm

/-- The object after `process_write` gathers one well-framed response, and every text
    was printed inside the write buffer. -/
structure Framed (mem : Int → UInt8) (c : HttpConn) (ret : HttpCode) : Prop where
  ready : (c.processWrite ret).2 = true
  wellFramed : WellFramed c.linger ((c.processWrite ret).1.iovBytes mem)
  inside : InsideBuf c (c.processWrite ret).1
  throughout : ∀ ts, ts <+: responseTexts c ret → InsideBuf c (printAll c ts)

theorem iovBytes_bufferOnly (c : HttpConn) (mem : Int → UInt8) :
    c.bufferOnly.iovBytes mem = c.text := by
  simp [iovBytes, bufferOnly, bytesOf, text]

/-- The bytes of the mapped file. -/
def fileBytes (mem : Int → UInt8) (c : HttpConn) : List UInt8 :=
  c.bytesOf mem ⟨.addr c.fileAddress, c.fileStat.size⟩

theorem fileBytes_length (mem : Int → UInt8) (c : HttpConn) : (c.fileBytes mem).length = c.fileStat.size := by
  simp [fileBytes, bytesOf]

theorem iovBytes_bufferAndFile (c : HttpConn) (mem : Int → UInt8) :
    c.bufferAndFile.iovBytes mem = c.text ++ c.fileBytes mem := by
  simp [iovBytes, bufferAndFile, bytesOf, text, fileBytes]

theorem text_nil (hidx : c.writeIdx = 0) : c.text = [] := by
  rw [text, hidx]
  rfl

/-- What `process_write` gathers for an error page. -/
theorem errorResponse_bytes (mem : Int → UInt8) (hidx : c.writeIdx = 0) {status : Int}
    {title form : List UInt8} (hstatus : IsCode status) (hlen : title.length + form.length < 900) :
    (c.errorResponse status title form).2 = true ∧
      (c.errorResponse status title form).1.iovBytes mem = (pageTexts c.linger status title form).flatten := by
  have hhead := headTexts_length (n := form.length) c.linger title hstatus.1
    (by simp only [intMin]; omega) (by simp only [intMax]; omega)
  obtain ⟨hidx', htext⟩ := printAll_fits c (headTexts c.linger status title form.length)
    (by simp only [writeBufferSize]; omega)
  obtain ⟨hok, -, hpage⟩ := addResponse_fits (printAll c (headTexts c.linger status title form.length)) form
    (by rw [hidx']; simp only [writeBufferSize]; omega)
  rw [errorResponse_eq, sendPage, if_pos hok, iovBytes_bufferOnly, hpage, htext, text_nil hidx, pageTexts,
    List.nil_append, List.flatten_append, List.flatten_singleton]
  exact ⟨rfl, rfl⟩

theorem errorResponse_framed (mem : Int → UInt8) (hidx : c.writeIdx = 0) {status : Int}
    {title form : List UInt8} (hstatus : IsCode status) (ht : ∀ b ∈ title, isPlain b)
    (hlen : title.length + form.length < 900) :
    (c.errorResponse status title form).2 = true ∧
      WellFramed c.linger ((c.errorResponse status title form).1.iovBytes mem) := by
  obtain ⟨hok, hbytes⟩ := errorResponse_bytes mem hidx hstatus hlen
  rw [hok, hbytes, pageTexts, List.flatten_append, List.flatten_singleton]
  exact ⟨rfl, wellFramed_head c.linger hstatus ht form⟩

/-- What `process_write` gathers for a file that is not empty. -/
theorem fileResponse_bytes (mem : Int → UInt8) (hidx : c.writeIdx = 0) (hne : c.fileStat.size ≠ 0) :
    c.fileResponse.2 = true ∧ c.fileResponse.1.iovBytes mem =
      (headTexts c.linger 200 ok200Title (toInt32 c.fileStat.size)).flatten ++ c.fileBytes mem := by
  have hcode : (printInt 200).length = 3 := by decide
  have hhead := headTexts_length c.linger ok200Title hcode (toInt32_ge c.fileStat.size) (toInt32_le _)
  have htitle : ok200Title.length = 2 := by decide
  obtain ⟨-, htext⟩ := printAll_fits c (headTexts c.linger 200 ok200Title (toInt32 c.fileStat.size))
    (by simp only [writeBufferSize]; omega)
  obtain ⟨m, k, hsame⟩ := printAll_same c (headTexts c.linger 200 ok200Title (toInt32 c.fileStat.size))
  have hfile : (printAll c (headTexts c.linger 200 ok200Title (toInt32 c.fileStat.size))).fileBytes mem =
      c.fileBytes mem := by
    rw [hsame]
    rfl
  rw [fileResponse_eq, if_pos hne, iovBytes_bufferAndFile, hfile, htext, text_nil hidx, List.nil_append]
  exact ⟨rfl, rfl⟩

/-- The framing of a file is right when its size survives the conversion to `int`. -/
theorem fileResponse_framed_iff (mem : Int → UInt8) (hidx : c.writeIdx = 0) :
    (c.fileResponse.2 = true ∧ WellFramed c.linger (c.fileResponse.1.iovBytes mem)) ↔
      0 < c.fileStat.size ∧ toInt32 c.fileStat.size = c.fileStat.size := by
  by_cases hne : c.fileStat.size = 0
  · have hfalse : c.fileResponse.2 = false := by
      rw [fileResponse_eq, if_neg (by simpa using hne)]
    simp [hfalse, hne]
  obtain ⟨hok, hbytes⟩ := fileResponse_bytes mem hidx hne
  have hlen := fileBytes_length mem c
  have htitle : ∀ b ∈ ok200Title, isPlain b := plain_of_all (by decide)
  rw [hok, hbytes]
  constructor
  · rintro ⟨-, hw⟩
    exact ⟨by omega, (wellFramed_announced htitle hw).trans (congrArg Nat.cast hlen)⟩
  · rintro ⟨-, hsize⟩
    refine ⟨rfl, ?_⟩
    rw [hsize, ← hlen]
    have hcode : IsCode 200 := by decide
    exact wellFramed_head c.linger hcode htitle _

theorem toInt32_eq_iff (n : Nat) : toInt32 n = n ↔ n < 2 ^ 31 := by
  constructor
  · intro h
    have := toInt32_le n
    simp only [intMax] at this
    omega
  · intro h
    rw [toInt32, Int.bmod_eq_of_le] <;> omega

/-! ## Which responses are framed -/

/-- A result code with which a call of `process_read` can return. -/
def Returned (ret : HttpCode) : Prop :=
  ∃ fs c c', processRead fs c = .ok (c', ret)

/-- The codes of `do_request`, and the one for a request that it does not get to. -/
def verdicts : List HttpCode :=
  [.badRequest, .noResource, .forbiddenRequest, .fileRequest]

theorem doRequest_verdict (fs : FileSystem) (c : HttpConn) :
    Ensures (c.doRequest fs) fun r => r.2 ∈ verdicts := by
  refine .bind_any fun d => .bind_any fun path => ?_
  split
  · exact .pure (by simp [verdicts])
  · exact .ite (.pure (by simp [verdicts])) (.ite (.pure (by simp [verdicts])) (.pure (by simp [verdicts])))

theorem loopBody_verdict (fs : FileSystem) (c : HttpConn) :
    Ensures (c.loopBody fs) fun r => ∀ code, r.2 = .ret code → code ∈ verdicts := by
  have hreq : ∀ d : HttpConn, Ensures (d.doRequest fs >>= fun r => pure (r.1, Next.ret r.2)) fun r =>
      ∀ code, r.2 = .ret code → code ∈ verdicts := by
    intro d
    refine (doRequest_verdict fs d).bind fun r hr => .pure ?_
    rintro code ⟨⟩
    exact hr
  unfold loopBody
  cases c.checkState with
  | requestLine =>
    refine .bind_any fun r => .ite (.pure ?_) (.pure nofun)
    rintro code ⟨⟩
    decide
  | header =>
    refine .bind_any fun r => .ite (.pure ?_) (.ite (hreq r.1) (.pure nofun))
    rintro code ⟨⟩
    decide
  | content => exact .bind_any fun r => .ite (hreq r.1) (.pure nofun)

theorem readLoop_verdict (fs : FileSystem) (n : Nat) (c : HttpConn) (status : LineStatus) :
    Ensures (readLoop fs n c status) fun r => r.2 ∈ .noRequest :: verdicts := by
  induction n generalizing c status with
  | zero => exact .throw
  | succ n ih =>
    refine .bind_any fun r => .ite ?_ (.pure List.mem_cons_self)
    refine (loopBody_verdict fs r.1).bind fun r' hr' => ?_
    obtain ⟨d, next⟩ := r'
    cases next with
    | ret code => exact .pure (List.mem_cons_of_mem _ (hr' code rfl))
    | again status => exact ih d status

theorem Returned.verdict {ret : HttpCode} (h : Returned ret) (hne : ret ≠ .noRequest) : ret ∈ verdicts := by
  obtain ⟨fs, c, c', hrun⟩ := h
  exact (List.mem_cons.mp (readLoop_verdict fs readFuel c .lineOk _ hrun)).resolve_left hne

/-- What `process_write` gathers for a verdict other than the one on an empty file. -/
theorem processWrite_bytes (mem : Int → UInt8) (hidx : c.writeIdx = 0) {ret : HttpCode} (hret : ret ∈ verdicts)
    (hne : ret = .fileRequest → c.fileStat.size ≠ 0) :
    (c.processWrite ret).2 = true ∧ (c.processWrite ret).1.iovBytes mem =
      (responseTexts c ret).flatten ++ if ret = .fileRequest then c.fileBytes mem else [] := by
  simp only [verdicts, List.mem_cons, List.not_mem_nil, or_false] at hret
  rcases hret with rfl | rfl | rfl | rfl
  · rw [if_neg (by decide), List.append_nil]
    exact errorResponse_bytes mem hidx (by decide) (by decide)
  · rw [if_neg (by decide), List.append_nil]
    exact errorResponse_bytes mem hidx (by decide) (by decide)
  · rw [if_neg (by decide), List.append_nil]
    exact errorResponse_bytes mem hidx (by decide) (by decide)
  · rw [if_pos rfl, responseTexts, if_pos (hne rfl)]
    exact fileResponse_bytes mem hidx (hne rfl)

theorem processWrite_inside (hidx : c.writeIdx = 0) (ret : HttpCode) : InsideBuf c (c.processWrite ret).1 := by
  have hc : InsideBuf c c := ⟨by rw [hidx]; decide, fun _ _ => rfl⟩
  obtain ⟨hbuf, hend⟩ := processWrite_prints c ret
  have hall := hc.printAll (responseTexts c ret)
  exact ⟨hend ▸ hall.idx, hbuf ▸ hall.outside⟩

/-- Every response is well framed but the one for a file that is empty, or too long
    for the `int` its length is printed as. -/
theorem framed_iff (mem : Int → UInt8) (c : HttpConn) (hidx : c.writeIdx = 0) {ret : HttpCode}
    (hret : Returned ret) (hne : ret ≠ .noRequest) :
    Framed mem c ret ↔ (ret = .fileRequest → 0 < c.fileStat.size ∧ c.fileStat.size < 2 ^ 31) := by
  have hc : InsideBuf c c := ⟨by rw [hidx]; decide, fun _ _ => rfl⟩
  have hframed : Framed mem c ret ↔ (c.processWrite ret).2 = true ∧
      WellFramed c.linger ((c.processWrite ret).1.iovBytes mem) :=
    ⟨fun h => ⟨h.ready, h.wellFramed⟩,
      fun h => ⟨h.1, h.2, processWrite_inside hidx ret, fun ts _ => hc.printAll ts⟩⟩
  have hcodes := hret.verdict hne
  simp only [verdicts, List.mem_cons, List.not_mem_nil, or_false] at hcodes
  rw [hframed]
  rcases hcodes with rfl | rfl | rfl | rfl
  · exact iff_of_true (errorResponse_framed mem hidx (by decide) (plain_of_all (by decide)) (by decide)) nofun
  · exact iff_of_true (errorResponse_framed mem hidx (by decide) (plain_of_all (by decide)) (by decide)) nofun
  · exact iff_of_true (errorResponse_framed mem hidx (by decide) (plain_of_all (by decide)) (by decide)) nofun
  · rw [processWrite, fileResponse_framed_iff mem hidx, toInt32_eq_iff]
    exact ⟨fun h _ => h, fun h => h rfl⟩

theorem returned_fileRequest : Returned .fileRequest := by
  have hcode : (processRead ⟨fun _ => some ⟨true, false, 0⟩, fun _ _ => -1⟩
      (blank.init.append (ascii "GET / HTTP/1.1\r\n\r\n"))).toOption.map Prod.snd = some .fileRequest := by
    decide +kernel
  obtain ⟨⟨c', code⟩, hrun, rfl⟩ := ok_of_toOption hcode
  exact ⟨_, _, c', hrun⟩

theorem framed_tenBytes :
    Framed (fun _ => 120) { blank with fileStat := ⟨true, false, 10⟩ } .fileRequest ↔
      (HttpCode.fileRequest = .fileRequest → 0 < 10 ∧ 10 < 2 ^ 31) :=
  framed_iff _ { blank with fileStat := ⟨true, false, 10⟩ } rfl returned_fileRequest (by decide)

/-- An empty file that the server may read gets no response. -/
theorem emptyFile_unframed : Returned .fileRequest ∧ blank.writeIdx = 0 ∧ blank.fileStat.size = 0 ∧
    ¬ Framed (fun _ => 0) blank .fileRequest := by
  refine ⟨returned_fileRequest, rfl, rfl, fun h => ?_⟩
  have hfalse : (blank.processWrite .fileRequest).2 = false := by decide +kernel
  exact absurd (hfalse.symm.trans h.ready) (by decide)

end HttpConn

end Http
