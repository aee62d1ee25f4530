-- SUMMARY: writev_http_response: what the program sends to its client, and for which files it is a response that its memory bears.
import LinuxLearning.HttpConn.ResponseFraming

/-!
# A file in one response

The program answers its one client with a status line, a length and a file. It reads the file
into a buffer of the size of a pointer. The variable `file_buf` is not initialised, so it holds
some `garbage` until a buffer is allocated, and `delete` gets it either way.
-/

namespace FileResponse

open Memory CString
open Http (vsnprintf printInt)

/-- What `stat` says of a file. -/
structure FileStat where
  isDir : Bool
  /-- `S_IROTH`. -/
  othersRead : Bool
  size : Nat
deriving Repr, DecidableEq

/-- What the system answers for `file_name`: `stat`, and what `open` and then `read` give. -/
structure Answers where
  stat : Option FileStat
  read : Nat → Option (List UInt8)
  read_le : ∀ n d, read n = some d → d.length ≤ n

/-- `BUFFER_SIZE`. -/
def bufferSize : Nat := 1024

/-- `sizeof(file_buf)`, the size of a pointer. -/
def sizeofPtr : Nat := 8

/-- `status_line`. -/
def statusLine : Bool → List UInt8
  | true => ascii "200 OK"
  | false => ascii "500 Internal server error"

-- ---------------------------------------------------------------------------
-- The program
-- ---------------------------------------------------------------------------

/-- `memset(p, '\0', n)` for an array of `cap` bytes. -/
def zero (cap : Nat) (m : Mem) (n : Nat) : Except Fault Mem :=
  if n ≤ cap then .ok (blit m 0 (List.replicate n 0)) else .error (.outOfBounds cap)

/-- The first `n` bytes of an array of `cap` bytes, as `writev` reads them. -/
def contents (cap : Nat) (m : Mem) (n : Nat) : Except Fault (List UInt8) :=
  if n ≤ cap then .ok (bytes m 0 n) else .error (.outOfBounds cap)

/-- The arrays that `new` has made. -/
abbrev Arrays := Store Mem

/-- `file_buf` and `valid` after the file was looked at. `new` answers with `p`, whose bytes are
    `junk`. -/
def loadFile (a : Answers) (garbage : Option Ptr) (p : Ptr) (junk : Mem) :
    Except Fault (Arrays × Option Ptr × Bool) :=
  match a.stat with
  | none => return (fun _ => none, garbage, false)
  | some st =>
    if st.isDir then return (fun _ => none, garbage, false)
    else if st.othersRead then do
      let m ← zero sizeofPtr junk (st.size + 1)
      match a.read (sizeofPtr - 1) with
      | none => return (Function.update (fun _ => none) p (some m), some p, false)
      | some d => return (Function.update (fun _ => none) p (some (blit m 0 d)), some p, true)
    else return (fun _ => none, garbage, false)

/-- `header_buf` for a file that is valid. -/
def okHeader (size : Nat) : Mem :=
  let status := ascii "HTTP/1.1" ++ ascii " " ++ statusLine true ++ ascii "\r\n"
  let length := ascii "Content-Length: " ++ printInt (toInt32 size) ++ ascii "\r\n"
  let m := vsnprintf (fun _ => 0) 0 (bufferSize - 1) status
  let len := status.length
  let m := vsnprintf m len (bufferSize - 1 - len) length
  let len := len + length.length
  vsnprintf m len (bufferSize - 1 - len) (ascii "\r\n")

/-- `header_buf` otherwise. The empty line goes over the status line. -/
def errorHeader : Mem :=
  let status := ascii "HTTP/1.1" ++ ascii " " ++ statusLine false ++ ascii "\r\n"
  let m := vsnprintf (fun _ => 0) 0 (bufferSize - 1) status
  vsnprintf m 0 (bufferSize - 1 - status.length) (ascii "\r\n")

/-- `main` from `accept` on: what is passed to `writev` or `send`. -/
def serve (a : Answers) (garbage : Option Ptr) (p : Ptr) (junk : Mem) : Except Fault (List UInt8) := do
  let (arrays, fileBuf, valid) ← loadFile a garbage p junk
  let sent ←
    if valid then do
      let size := (a.stat.map FileStat.size).getD 0
      let header ← cstring bufferSize (okHeader size) 0
      let body ← contents sizeofPtr (← deref arrays fileBuf) size
      pure (header ++ body)
    else cstring bufferSize errorHeader 0
  let _ ← free arrays fileBuf
  return sent

-- ---------------------------------------------------------------------------
-- The headers
-- ---------------------------------------------------------------------------

/-- The head of the response to a file of `n` bytes. -/
def head (n : Nat) : List UInt8 :=
  ascii "HTTP/1.1 200 OK\r\n" ++ (ascii "Content-Length: " ++ printInt n ++ ascii "\r\n") ++ ascii "\r\n"

/-- Printing behind known bytes makes a text of them all. -/
theorem vsnprintf_text {cap size : Nat} {m : Mem} {l out : List UInt8} (hl : bytes m 0 l.length = l)
    (hnul : 0 ∉ l ++ out) (hsize : out.length < size) (hfit : l.length + size ≤ cap) :
    TextAt cap (vsnprintf m l.length size out) 0 (l ++ out) := by
  have hold : bytes (vsnprintf m l.length size out) 0 l.length = l := by
    rw [bytes_congr fun i _ hi => Http.HttpConn.vsnprintf_of_lt m out (by omega), hl]
  have hall : bytes (vsnprintf m l.length size out) 0 (l ++ out).length = l ++ out := by
    rw [List.length_append, bytes_add, hold, Nat.zero_add, Http.HttpConn.bytes_vsnprintf m l.length hsize]
  have hstop : vsnprintf m l.length size out (0 + (l ++ out).length) = 0 := by
    rw [vsnprintf, if_neg (by omega), List.take_of_length_le (by omega), blit_apply, dif_pos (by simp)]
    simp
  have htext : TextAt cap (vsnprintf m l.length size out) 0 ((l ++ out).takeWhile (· != 0)) :=
    .of_bytes hall hstop (by rw [List.length_append]; omega)
  have hself : (l ++ out).takeWhile (· != 0) = l ++ out := by
    rw [List.takeWhile_eq_self_iff]
    intro b hb
    have hne : b ≠ 0 := fun h0 => hnul (h0 ▸ hb)
    simpa using hne
  rwa [hself] at htext

theorem printInt_nulFree (n : Nat) : 0 ∉ printInt n := by
  intro h
  have hdigit := List.all_eq_true.mp (Http.decimal_printInt n).2.1 0 h
  exact absurd hdigit (by decide)

theorem toInt32_small {n : Nat} (h : n < sizeofPtr) : toInt32 n = n := by
  rw [sizeofPtr] at h
  rw [toInt32, Int.bmod_eq_of_le (by omega) (by omega)]

/-- `header_buf` after `memset`. -/
theorem blank_text : TextAt bufferSize (fun _ => 0) 0 [] :=
  ⟨by decide, by simp, List.not_mem_nil, rfl⟩

/-- `snprintf` at the end of the text in `header_buf`. -/
theorem next_text {m : Mem} {l out : List UInt8} (h : TextAt bufferSize m 0 l) (hout : 0 ∉ out)
    (hfit : l.length + out.length < bufferSize - 1) :
    TextAt bufferSize (vsnprintf m l.length (bufferSize - 1 - l.length) out) 0 (l ++ out) := by
  refine vsnprintf_text (bytes_text h) ?_ (by omega) (by omega)
  rw [List.mem_append]
  rintro (h0 | h0)
  · exact h.nulFree h0
  · exact hout h0

theorem okHeader_text {n : Nat} (h : n < sizeofPtr) : TextAt bufferSize (okHeader n) 0 (head n) := by
  have hnum : (printInt n).length ≤ 11 := by
    rw [← toInt32_small h]
    exact Http.printInt_length (toInt32_ge _) (toInt32_le _)
  have hnul : 0 ∉ ascii "Content-Length: " ++ printInt n ++ ascii "\r\n" := by
    rw [List.mem_append, List.mem_append]
    rintro ((h0 | h0) | h0)
    · exact absurd h0 (by decide)
    · exact printInt_nulFree n h0
    · exact absurd h0 (by decide)
  have h17 : (ascii "HTTP/1.1 200 OK\r\n").length = 17 := by decide
  have h16 : (ascii "Content-Length: ").length = 16 := by decide
  have h2 : (ascii "\r\n").length = 2 := by decide
  have hline : ascii "HTTP/1.1" ++ ascii " " ++ statusLine true ++ ascii "\r\n" = ascii "HTTP/1.1 200 OK\r\n" := by
    decide
  have hstatus := next_text blank_text (show 0 ∉ ascii "HTTP/1.1 200 OK\r\n" by decide) (by decide)
  have hlength := next_text hstatus hnul (by
    simp only [List.length_append, List.length_nil, h17, h16, h2, bufferSize]
    omega)
  have hblank := next_text hlength (show 0 ∉ ascii "\r\n" by decide) (by
    simp only [List.length_append, List.length_nil, h17, h16, h2, bufferSize]
    omega)
  rw [List.nil_append] at hblank
  simp only [okHeader, toInt32_small h, hline, ← List.length_append]
  exact hblank

theorem errorHeader_text : TextAt bufferSize errorHeader 0 (ascii "\r\n") :=
  vsnprintf_text (l := []) rfl (show 0 ∉ [] ++ ascii "\r\n" by decide) (by decide) (by decide)

-- ---------------------------------------------------------------------------
-- What is sent
-- ---------------------------------------------------------------------------

/-- What `stat` says of a file that is to be sent. -/
def Answers.valid (a : Answers) : Option FileStat :=
  a.stat.filter fun st => !st.isDir && st.othersRead

theorem loadFile_invalid {a : Answers} (h : a.valid = none) (garbage : Option Ptr) (p : Ptr) (junk : Mem) :
    loadFile a garbage p junk = .ok (fun _ => none, garbage, false) := by
  cases hstat : a.stat with
  | none => simp [loadFile, hstat]
  | some st =>
    rw [Answers.valid, hstat] at h
    cases hdir : st.isDir <;> cases hread : st.othersRead <;> simp_all [loadFile, Option.filter]

theorem loadFile_valid {a : Answers} {st : FileStat} (h : a.valid = some st) (garbage : Option Ptr) (p : Ptr)
    (junk : Mem) : a.stat = some st ∧ loadFile a garbage p junk = (do
      let m ← zero sizeofPtr junk (st.size + 1)
      match a.read (sizeofPtr - 1) with
      | none => return (Function.update (fun _ => none) p (some m), some p, false)
      | some d => return (Function.update (fun _ => none) p (some (blit m 0 d)), some p, true)) := by
  obtain ⟨hstat, hvalid⟩ := Option.filter_eq_some_iff.mp h
  simp only [Bool.and_eq_true, Bool.not_eq_true'] at hvalid
  refine ⟨hstat, ?_⟩
  rw [loadFile, hstat]
  simp [hvalid.1, hvalid.2]

/-- What reading leaves in the array, up to the size of the file. -/
theorem bytes_read (junk : Mem) (d : List UInt8) (n : Nat) :
    bytes (blit (blit junk 0 (List.replicate (n + 1) 0)) 0 d) 0 n =
      (d ++ List.replicate (n - d.length) 0).take n := by
  have hlen : ((d ++ List.replicate (n - d.length) 0).take n).length = n := by
    rw [List.length_take, List.length_append, List.length_replicate]
    omega
  have heq := @bytes_eq (blit (blit junk 0 (List.replicate (n + 1) 0)) 0 d) 0
    ((d ++ List.replicate (n - d.length) 0).take n) ?_
  · rwa [hlen] at heq
  · intro k hk
    rw [hlen] at hk
    rw [List.getElem_take, blit_apply]
    by_cases hd : k < d.length
    · rw [dif_pos (by omega), List.getElem_append_left hd]
      simp
    · rw [dif_neg (by omega), List.getElem_append_right (by omega), blit_apply, dif_pos (by simp; omega)]
      simp

/-- What the program comes to, for every answer of the system. -/
theorem serve_eq (a : Answers) (garbage : Option Ptr) (p : Ptr) (junk : Mem) :
    serve a garbage p junk =
      match a.valid with
      | none =>
        match garbage with
        | none => .ok (ascii "\r\n")
        | some q => .error (.dangling q)
      | some st =>
        if sizeofPtr ≤ st.size then .error (.outOfBounds sizeofPtr)
        else
          match a.read (sizeofPtr - 1) with
          | none => .ok (ascii "\r\n")
          | some d => .ok (head st.size ++ (d ++ List.replicate (st.size - d.length) 0).take st.size) := by
  have herror := cstring_text errorHeader_text
  cases hvalid : a.valid with
  | none =>
    rw [serve, loadFile_invalid hvalid]
    cases garbage with
    | none => simp [herror, free]
    | some q =>
      simp only [ok_bind, herror, free]
      rfl
  | some st =>
    obtain ⟨hstat, hload⟩ := loadFile_valid hvalid garbage p junk
    rw [serve, hload]
    by_cases hsize : sizeofPtr ≤ st.size
    · have hover : ¬ st.size + 1 ≤ sizeofPtr := by omega
      simp only [zero, if_neg hover, if_pos hsize]
      rfl
    · have hfit : st.size + 1 ≤ sizeofPtr := by omega
      have hheader := cstring_text (okHeader_text (Nat.lt_of_not_le hsize))
      simp only [zero, if_pos hfit, if_neg hsize, ok_bind]
      cases hread : a.read (sizeofPtr - 1) with
      | none => simp [herror, free]
      | some d =>
        have hbody : st.size ≤ sizeofPtr := by omega
        simp [hstat, hheader, deref, free, contents, hbody, bytes_read]

/-- A file with its content, and whether it can be opened. -/
structure File where
  content : List UInt8
  isDir : Bool
  othersRead : Bool
  opens : Bool

/-- The answers where nothing goes wrong but what the mode of the file forbids. -/
def File.answers (f : File) : Answers where
  stat := some ⟨f.isDir, f.othersRead, f.content.length⟩
  read n := if f.opens then some (f.content.take n) else none
  read_le n d h := by
    cases hopens : f.opens <;> simp [hopens] at h
    rw [← h]
    exact List.length_take_le ..

theorem File.valid_eq (f : File) : f.answers.valid =
    if f.isDir = false ∧ f.othersRead = true then some ⟨f.isDir, f.othersRead, f.content.length⟩ else none := by
  simp [Answers.valid, File.answers, Option.filter]

/-- A status line is no empty line. -/
theorem head_ne (n : Nat) (body : List UInt8) : head n ++ body ≠ ascii "\r\n" := by
  intro h
  have hfirst := congrArg List.head? h
  have hline : (ascii "HTTP/1.1 200 OK\r\n").head? = some 72 := by decide
  have hempty : (ascii "\r\n").head? = some 13 := by decide
  rw [head, List.append_assoc, List.append_assoc, List.head?_append, hline, hempty] at hfirst
  cases hfirst

/-- The program responds with the file exactly if others may read it, it can be opened and it
    has at most seven bytes. What it does is undefined for a longer file, and for one that others
    may not read unless `file_buf` happens to be null. Anyone else is sent an empty line. -/
theorem serve_file_iff (f : File) (garbage : Option Ptr) (p : Ptr) (junk : Mem) :
    (serve f.answers garbage p junk = .ok (head f.content.length ++ f.content) ↔
      f.isDir = false ∧ f.othersRead = true ∧ f.opens = true ∧ f.content.length < sizeofPtr) ∧
    ((∃ e, serve f.answers garbage p junk = .error e) ↔
      if f.isDir = false ∧ f.othersRead = true then sizeofPtr ≤ f.content.length else garbage ≠ none) ∧
    ∀ out, serve f.answers garbage p junk = .ok out →
      out = head f.content.length ++ f.content ∨ out = ascii "\r\n" := by
  have hnot : ascii "\r\n" ≠ head f.content.length ++ f.content := fun h => head_ne _ _ h.symm
  rw [serve_eq, f.valid_eq]
  by_cases hmode : f.isDir = false ∧ f.othersRead = true
  · rw [if_pos hmode, if_pos hmode]
    by_cases hsize : sizeofPtr ≤ f.content.length
    · simp [hsize]
    · have hlt := Nat.lt_of_not_le hsize
      have hle : f.content.length ≤ sizeofPtr - 1 := by omega
      cases hopens : f.opens with
      | false => simp [hsize, File.answers, hopens, hnot]
      | true => simp [hsize, File.answers, hopens, hmode, hlt, List.take_of_length_le hle]
  · rw [if_neg hmode, if_neg hmode]
    have hnever : ¬ (f.isDir = false ∧ f.othersRead = true ∧ f.opens = true ∧ f.content.length < sizeofPtr) :=
      fun h => hmode ⟨h.1, h.2.1⟩
    cases garbage <;> simp [hnot, hnever]

end FileResponse
