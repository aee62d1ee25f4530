-- SUMMARY: How http_conn prepares a response, and what the prepared buffer looks like.
import LinuxLearning.HttpConn.State

/-!
# Preparing a response

`process_write` prints the response into `m_write_buf` and points the iovecs at it,
and at the mapped file where there is one. `text` is what has been printed. The
theorem for `write()` is that the text begins with the only `H` in it.
-/

namespace Http

open Memory CString

def ok200Title : List UInt8 := ascii "OK"
def error400Title : List UInt8 := ascii "Bad Request"
def error400Form : List UInt8 :=
  ascii "Your request has bad syntax or is inherently impossible to satisfy.\n"
def error403Title : List UInt8 := ascii "Forbidden"
def error403Form : List UInt8 :=
  ascii "You do not have permission to get the file from this server.\n"
def error404Title : List UInt8 := ascii "Not Found"
def error404Form : List UInt8 := ascii "The requested file was not found on this server.\n"
def error500Title : List UInt8 := ascii "Internal Error"
def error500Form : List UInt8 := ascii "There was an unusual problem serving the requested file.\n"
def okString : List UInt8 := ascii "<html><body></body></html>"

/-- The conversion `%d`. -/
def printInt (v : Int) : List UInt8 :=
  (if v < 0 then [45] else []) ++ (Nat.toDigits 10 v.natAbs).map fun d => d.toNat.toUInt8

/-- What is printed for a digit is a digit. -/
theorem digit_toUInt8 {d : Char} (hd : d.isDigit) :
    isdigit d.toNat.toUInt8 ∧ d.toNat.toUInt8.toNat = d.toNat := by
  simp only [Char.isDigit, Bool.and_eq_true, decide_eq_true_eq] at hd
  have hlo : 48 ≤ d.toNat := hd.1
  have hhi : d.toNat ≤ 57 := hd.2
  have hval : d.toNat.toUInt8.toNat = d.toNat := by
    rw [Nat.toUInt8, UInt8.toNat_ofNat', Nat.mod_eq_of_lt (by omega)]
  refine ⟨?_, hval⟩
  simp only [isdigit, Bool.and_eq_true, decide_eq_true_eq, UInt8.le_iff_toNat_le, hval]
  exact ⟨hlo, hhi⟩

/-- What `vsnprintf` leaves at `s` with room for `size` bytes. -/
def vsnprintf (m : Mem) (s size : Nat) (out : List UInt8) : Mem :=
  if size = 0 then m else blit m s (out.take (size - 1) ++ [0])

namespace HttpConn

-- ---------------------------------------------------------------------------
-- The printing functions
-- ---------------------------------------------------------------------------

/-- `add_response` with the formatted text. -/
def addResponse (c : HttpConn) (out : List UInt8) : HttpConn × Bool :=
  if writeBufferSize ≤ c.writeIdx then (c, false)
  else
    let size := writeBufferSize - 1 - c.writeIdx
    let c := { c with writeBuf := vsnprintf c.writeBuf c.writeIdx size out }
    if size ≤ out.length then (c, false)
    else ({ c with writeIdx := c.writeIdx + out.length }, true)

def addStatusLine (c : HttpConn) (status : Int) (title : List UInt8) : HttpConn × Bool :=
  c.addResponse (ascii "HTTP/1.1" ++ ascii " " ++ printInt status ++ ascii " " ++ title ++ ascii "\r\n")

def addContentLength (c : HttpConn) (contentLen : Int) : HttpConn × Bool :=
  c.addResponse (ascii "Content-Length: " ++ printInt contentLen ++ ascii "\r\n")

def addLinger (c : HttpConn) : HttpConn × Bool :=
  c.addResponse (ascii "Connection: " ++ (if c.linger then ascii "keep-alive" else ascii "close") ++
    ascii "\r\n")

def addBlankLine (c : HttpConn) : HttpConn × Bool :=
  c.addResponse (ascii "\r\n")

/-- `add_headers` drops the results and has no `return` of its own. -/
def addHeaders (c : HttpConn) (contentLen : Int) : HttpConn :=
  let c := (c.addContentLength contentLen).1
  let c := c.addLinger.1
  c.addBlankLine.1

def addContent (c : HttpConn) (content : List UInt8) : HttpConn × Bool :=
  c.addResponse content

-- ---------------------------------------------------------------------------
-- process_write
-- ---------------------------------------------------------------------------

/-- The iovecs after the `switch`: the write buffer alone. -/
def bufferOnly (c : HttpConn) : HttpConn :=
  { c with iv0 := ⟨.writeBuf, c.writeIdx⟩, ivCount := 1 }

/-- The iovecs of a file that is not empty. -/
def bufferAndFile (c : HttpConn) : HttpConn :=
  { c with
    iv0 := ⟨.writeBuf, c.writeIdx⟩
    iv1 := ⟨.addr c.fileAddress, c.fileStat.size⟩
    ivCount := 2 }

/-- The end of a case with an error page, and the code behind the `switch`. -/
def sendPage (r : HttpConn × Bool) : HttpConn × Bool :=
  if r.2 then (r.1.bufferOnly, true) else (r.1, false)

/-- The four cases of `process_write` with an error page. -/
def errorResponse (c : HttpConn) (status : Int) (title form : List UInt8) : HttpConn × Bool :=
  let c := (c.addStatusLine status title).1
  let c := c.addHeaders form.length
  sendPage (c.addContent form)

def fileResponse (c : HttpConn) : HttpConn × Bool :=
  let c := (c.addStatusLine 200 ok200Title).1
  if c.fileStat.size ≠ 0 then
    let c := c.addHeaders (toInt32 c.fileStat.size)
    (c.bufferAndFile, true)
  else
    let c := c.addHeaders okString.length
    -- no break: a page that was added falls through to the default case as well
    ((c.addContent okString).1, false)

def processWrite (c : HttpConn) (ret : HttpCode) : HttpConn × Bool :=
  match ret with
  | .internalError => c.errorResponse 500 error500Title error500Form
  | .badRequest => c.errorResponse 400 error400Title error400Form
  | .noResource => c.errorResponse 404 error404Title error404Form
  | .forbiddenRequest => c.errorResponse 403 error403Title error403Form
  | .fileRequest => c.fileResponse
  | .noRequest | .getRequest | .closedConnection => (c, false)

-- ---------------------------------------------------------------------------
-- The printed text
-- ---------------------------------------------------------------------------

variable {c : HttpConn}

/-- What has been printed into the write buffer. -/
def text (c : HttpConn) : List UInt8 :=
  bytes c.writeBuf 0 c.writeIdx

theorem vsnprintf_of_lt (m : Mem) {s size i : Nat} (out : List UInt8) (hi : i < s) :
    vsnprintf m s size out i = m i := by
  unfold vsnprintf
  split
  · rfl
  · exact blit_of_lt _ _ hi

theorem bytes_vsnprintf (m : Mem) (s : Nat) {size : Nat} {out : List UInt8}
    (h : out.length < size) : bytes (vsnprintf m s size out) s out.length = out := by
  rw [vsnprintf, if_neg (by omega), List.take_of_length_le (by omega)]
  have := bytes_blit m s (out ++ [0])
  rw [List.length_append, bytes_add] at this
  exact (List.append_inj this (bytes_length ..)).1

/-- Printing appends the whole text, or leaves what was printed before. -/
theorem addResponse_text (c : HttpConn) (out : List UInt8) :
    (c.addResponse out).1.text =
      c.text ++ if c.writeIdx + out.length < writeBufferSize - 1 then out else [] := by
  have hkeep : ∀ size, bytes (vsnprintf c.writeBuf c.writeIdx size out) 0 c.writeIdx = c.text :=
    fun size => bytes_congr fun i _ hi => vsnprintf_of_lt _ _ (by omega)
  by_cases hfit : c.writeIdx + out.length < writeBufferSize - 1
  · have hroom : ¬ writeBufferSize ≤ c.writeIdx := by omega
    have hsize : ¬ writeBufferSize - 1 - c.writeIdx ≤ out.length := by omega
    rw [if_pos hfit]
    simp only [addResponse, if_neg hroom, if_neg hsize, text, bytes_add, Nat.zero_add]
    rw [hkeep, bytes_vsnprintf _ _ (by omega), text]
  · rw [if_neg hfit, List.append_nil]
    by_cases hroom : writeBufferSize ≤ c.writeIdx
    · simp only [addResponse, if_pos hroom]
    · have hsize : writeBufferSize - 1 - c.writeIdx ≤ out.length := by omega
      simp only [addResponse, if_neg hroom, if_pos hsize, text]
      exact hkeep _

/-- The letter `H`. It occurs once in a response, at the front. -/
abbrev capitalH : UInt8 := 72

/-- A text that begins with the only `H` in it. -/
def Heads (l : List UInt8) : Prop :=
  ∃ w, l = capitalH :: w ∧ capitalH ∉ w

theorem Heads.append {l out : List UInt8} (h : Heads l) (hout : capitalH ∉ out) :
    Heads (l ++ out) := by
  obtain ⟨w, rfl, hw⟩ := h
  exact ⟨w ++ out, rfl, by simp [hw, hout]⟩

theorem Heads.addResponse {out : List UInt8} (h : Heads c.text) (hout : capitalH ∉ out) :
    Heads (c.addResponse out).1.text := by
  rw [addResponse_text]
  apply h.append
  split
  · exact hout
  · exact List.not_mem_nil

theorem printInt_plain (v : Int) : capitalH ∉ printInt v := by
  intro h
  simp only [printInt, List.mem_append, List.mem_map] at h
  rcases h with h | ⟨d, hd, hv⟩
  · split at h
    · exact absurd h (by decide)
    · exact absurd h List.not_mem_nil
  · have hdigit := (digit_toUInt8 (Nat.isDigit_of_mem_toDigits (by decide) (by decide) hd)).1
    rw [hv] at hdigit
    exact absurd hdigit (by decide)

theorem Heads.addHeaders (h : Heads c.text) (n : Int) : Heads (c.addHeaders n).text := by
  refine ((h.addResponse ?_).addResponse ?_).addResponse (by decide)
  · simp only [List.mem_append, not_or]
    exact ⟨⟨by decide, printInt_plain n⟩, by decide⟩
  · split <;> decide

/-- The status line is the first text of a response, and it fits. -/
theorem addStatusLine_heads (h : c.writeIdx = 0) {status : Int} {title : List UInt8}
    (ht : capitalH ∉ title) (hlen : (printInt status ++ title).length < 1000) :
    Heads (c.addStatusLine status title).1.text := by
  have hnil : c.text = [] := by rw [text, h]; rfl
  rw [addStatusLine, addResponse_text, hnil, List.nil_append, if_pos]
  · refine ⟨ascii "TTP/1.1" ++ ascii " " ++ printInt status ++ ascii " " ++ title ++ ascii "\r\n",
      rfl, ?_⟩
    simp only [List.mem_append, not_or]
    exact ⟨⟨⟨⟨⟨by decide, by decide⟩, printInt_plain _⟩, by decide⟩, ht⟩, by decide⟩
  · have h1 : (ascii "HTTP/1.1").length = 8 := by decide
    have h2 : (ascii " ").length = 1 := by decide
    have h3 : (ascii "\r\n").length = 2 := by decide
    simp only [List.length_append, writeBufferSize] at hlen ⊢
    omega

/-- A response that is ready to be sent: its first buffer is the printed text. -/
structure Prepared (c : HttpConn) : Prop where
  heads : Heads c.text
  iv0 : c.iv0 = ⟨.writeBuf, c.writeIdx⟩
  count : c.ivCount = 1 ∨ c.ivCount = 2

theorem sendPage_prepared {r : HttpConn × Bool} (h : Heads r.1.text) (hok : (sendPage r).2 = true) :
    (sendPage r).1.Prepared := by
  unfold sendPage at hok ⊢
  by_cases hadded : r.2 = true
  · rw [if_pos hadded]
    exact ⟨h, rfl, .inl rfl⟩
  · rw [if_neg hadded] at hok
    exact absurd hok Bool.false_ne_true

theorem errorResponse_prepared (h : c.writeIdx = 0) {status : Int} {title form : List UInt8}
    (ht : capitalH ∉ title) (hlen : (printInt status ++ title).length < 1000)
    (hf : capitalH ∉ form) (hok : (c.errorResponse status title form).2 = true) :
    (c.errorResponse status title form).1.Prepared :=
  sendPage_prepared (((addStatusLine_heads h ht hlen).addHeaders form.length).addResponse hf) hok

theorem fileResponse_prepared (h : c.writeIdx = 0) (hok : c.fileResponse.2 = true) :
    c.fileResponse.1.Prepared := by
  have hheads : Heads (c.addStatusLine 200 ok200Title).1.text :=
    addStatusLine_heads h (by decide) (by decide)
  simp only [fileResponse] at hok ⊢
  generalize (c.addStatusLine 200 ok200Title).1 = d at *
  split at hok
  · rename_i hsize
    rw [if_pos hsize]
    exact ⟨hheads.addHeaders _, rfl, .inr rfl⟩
  · exact absurd hok Bool.false_ne_true

/-- Every response that `process_write` reports as prepared is. -/
theorem processWrite_prepared (h : c.writeIdx = 0) {ret : HttpCode}
    (hok : (c.processWrite ret).2 = true) : (c.processWrite ret).1.Prepared := by
  cases ret with
  | internalError => exact errorResponse_prepared h (by decide) (by decide) (by decide) hok
  | badRequest => exact errorResponse_prepared h (by decide) (by decide) (by decide) hok
  | noResource => exact errorResponse_prepared h (by decide) (by decide) (by decide) hok
  | forbiddenRequest => exact errorResponse_prepared h (by decide) (by decide) (by decide) hok
  | fileRequest => exact fileResponse_prepared h hok
  | noRequest | getRequest | closedConnection => exact absurd hok (by simp [processWrite])

end HttpConn

end Http
