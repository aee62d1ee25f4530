-- SUMMARY: Sending a prepared response: write() over partial writes, and the exact condition under which the socket gets the bytes of the response.
import LinuxLearning.HttpConn.Response

/-!
# Sending a response

`write()` hands the same iovecs to every `writev`, and counts `bytes_to_send` from
the length of the write buffer alone. So what the socket gets is a sequence of
prefixes of the response, and the response itself only if the first prefix is all
of it. The proof looks at the letter `H`: a later prefix begins with one, and the
place it lands on lies in the printed text, which has no second.
-/

namespace Http

open Memory CString

/-- The interest `modfd` arms a descriptor with. -/
inductive Interest where
  | epollin | epollout
deriving Repr, DecidableEq

/-- One return of `writev`: a number of bytes, or -1 with the error number. -/
inductive Writev where
  | sent (n : Nat)
  | eagain
  | error
deriving Repr, DecidableEq

/-- The most one call of `writev` transfers on Linux. It keeps the counters of
    `write()` in the range of `int`. -/
def maxRwCount : Nat := 0x7ffff000

/-- What a call of `write()` leaves behind: the object, the bytes the socket has
    accepted, the interest that was armed, the result, and the returns of `writev`
    that are left for later calls. -/
structure WriteCall where
  conn : HttpConn
  sent : List UInt8
  armed : Option Interest
  ret : Bool
  rest : List Writev

/-- The call with bytes accepted before. -/
def WriteCall.after (r : WriteCall) (bs : List UInt8) : WriteCall :=
  { r with sent := bs ++ r.sent }

namespace HttpConn

-- ---------------------------------------------------------------------------
-- The iovecs
-- ---------------------------------------------------------------------------

/-- The bytes an `iovec` describes. `mem` is the memory the addresses point into. -/
def bytesOf (c : HttpConn) (mem : Int → UInt8) (v : Iovec) : List UInt8 :=
  match v.base with
  | .writeBuf => bytes c.writeBuf 0 v.len
  | .addr a => (List.range v.len).map fun i : Nat => mem (a + i)

/-- The bytes `writev` gathers from the iovecs in use. -/
def iovBytes (c : HttpConn) (mem : Int → UInt8) : List UInt8 :=
  c.bytesOf mem c.iv0 ++ if c.ivCount = 2 then c.bytesOf mem c.iv1 else []

def iovLen (c : HttpConn) : Nat :=
  c.iv0.len + if c.ivCount = 2 then c.iv1.len else 0

/-- What `writev` can answer short of an error other than `EAGAIN`. -/
def Possible (c : HttpConn) : Writev → Prop
  | .sent n => 1 ≤ n ∧ n ≤ c.iovLen ∧ n ≤ maxRwCount
  | .eagain => True
  | .error => False

instance (c : HttpConn) : DecidablePred c.Possible
  | .sent n => inferInstanceAs (Decidable (1 ≤ n ∧ n ≤ c.iovLen ∧ n ≤ maxRwCount))
  | .eagain => .isTrue trivial
  | .error => .isFalse id

-- ---------------------------------------------------------------------------
-- write
-- ---------------------------------------------------------------------------

def unmap (c : HttpConn) : HttpConn :=
  if c.fileAddress ≠ 0 then { c with fileAddress := 0 } else c

/-- The end of `write()` once it takes the response for sent. -/
def endWrite (c : HttpConn) (accepted : List UInt8) (os : List Writev) : WriteCall :=
  let c := c.unmap
  if c.linger then ⟨c.init, accepted, some .epollin, true, os⟩
  else ⟨c, accepted, some .epollin, false, os⟩

/-- The `while` loop of `write()`. Without a return of `writev` the call blocks. -/
def writeLoop (mem : Int → UInt8) (c : HttpConn) (bytesToSend bytesHaveSent : Int) :
    List Writev → Option WriteCall
  | [] => none
  | .eagain :: os => some ⟨c, [], some .epollout, true, os⟩
  | .error :: os => some ⟨c.unmap, [], none, false, os⟩
  | .sent n :: os =>
    let bytesToSend := bytesToSend - n
    let bytesHaveSent := bytesHaveSent + n
    let accepted := (c.iovBytes mem).take n
    if bytesToSend ≤ bytesHaveSent then some (c.endWrite accepted os)
    else (writeLoop mem c bytesToSend bytesHaveSent os).map (·.after accepted)

def write (mem : Int → UInt8) (c : HttpConn) (os : List Writev) : Option WriteCall :=
  if c.writeIdx = 0 then some ⟨c.init, [], some .epollin, true, os⟩
  else writeLoop mem c c.writeIdx 0 os

/-- Calls of `write()`, each on the next `EPOLLOUT`, until one does not ask for
    another. The result is what the socket has accepted by then. -/
def respondFuel (mem : Int → UInt8) : Nat → HttpConn → List Writev → Option (List UInt8)
  | 0, _, _ => none
  | n + 1, c, os =>
    match c.write mem os with
    | none => none
    | some r =>
      if r.armed = some .epollout then (respondFuel mem n r.conn r.rest).map (r.sent ++ ·)
      else some r.sent

def respond (mem : Int → UInt8) (c : HttpConn) (os : List Writev) : Option (List UInt8) :=
  respondFuel mem (os.length + 1) c os

variable {mem : Int → UInt8} {c : HttpConn}

-- ---------------------------------------------------------------------------
-- Calls
-- ---------------------------------------------------------------------------

@[simp] theorem endWrite_sent (accepted : List UInt8) (os : List Writev) :
    (c.endWrite accepted os).sent = accepted := by
  simp only [endWrite]
  split <;> rfl

@[simp] theorem endWrite_armed (accepted : List UInt8) (os : List Writev) :
    (c.endWrite accepted os).armed = some .epollin := by
  simp only [endWrite]
  split <;> rfl

@[simp] theorem endWrite_rest (accepted : List UInt8) (os : List Writev) :
    (c.endWrite accepted os).rest = os := by
  simp only [endWrite]
  split <;> rfl

/-- A call that asks for another has taken a return of `writev`, and leaves the
    object as it was: nothing records how much has gone out. -/
theorem writeLoop_again {a b : Int} {os : List Writev} {r : WriteCall}
    (hr : writeLoop mem c a b os = some r) (hagain : r.armed = some .epollout) :
    r.conn = c ∧ ∃ o used, os = o :: used ++ r.rest := by
  induction os generalizing a b r with
  | nil => cases hr
  | cons o os ih =>
    cases o with
    | eagain => cases hr; exact ⟨rfl, .eagain, [], rfl⟩
    | error => cases hr; cases hagain
    | sent n =>
      simp only [writeLoop] at hr
      split at hr
      · cases hr
        rw [endWrite_armed] at hagain
        cases hagain
      · obtain ⟨r', hr', rfl⟩ := Option.map_eq_some_iff.mp hr
        obtain ⟨hc, o', used, rfl⟩ := ih hr' hagain
        exact ⟨hc, .sent n, o' :: used, rfl⟩

theorem write_again {os : List Writev} {r : WriteCall} (hr : c.write mem os = some r)
    (hagain : r.armed = some .epollout) : r.conn = c ∧ ∃ o used, os = o :: used ++ r.rest := by
  unfold write at hr
  split at hr
  · cases hr; cases hagain
  · exact writeLoop_again hr hagain

/-- The fuel of `respond` does not run out: a call takes a return of `writev`. -/
theorem respondFuel_eq {n k : Nat} {os : List Writev} (hn : os.length < n) (hk : os.length < k) :
    respondFuel mem n c os = respondFuel mem k c os := by
  induction n generalizing k c os with
  | zero => omega
  | succ n ih =>
    obtain ⟨k, rfl⟩ : ∃ k', k = k' + 1 := ⟨k - 1, by omega⟩
    simp only [respondFuel]
    cases hr : c.write mem os with
    | none => rfl
    | some r =>
      by_cases hagain : r.armed = some .epollout
      · obtain ⟨-, o, used, rfl⟩ := write_again hr hagain
        simp only [List.length_append, List.length_cons] at hn hk
        simp only [if_pos hagain]
        rw [ih (k := k) (by omega) (by omega)]
      · simp only [if_neg hagain]

theorem respond_eq (os : List Writev) :
    respond mem c os = match c.write mem os with
      | none => none
      | some r =>
        if r.armed = some .epollout then (respond mem r.conn r.rest).map (r.sent ++ ·)
        else some r.sent := by
  rw [respond, respondFuel]
  cases hr : c.write mem os with
  | none => rfl
  | some r =>
    by_cases hagain : r.armed = some .epollout
    · obtain ⟨-, o, used, rfl⟩ := write_again hr hagain
      simp only [if_pos hagain, respond]
      rw [respondFuel_eq (k := r.rest.length + 1) (by grind) (by omega)]
    · simp only [if_neg hagain]

-- ---------------------------------------------------------------------------
-- What the socket gets
-- ---------------------------------------------------------------------------

/-- The gathered bytes are as many as the iovecs say. -/
theorem iovBytes_length (c : HttpConn) (mem : Int → UInt8) : (c.iovBytes mem).length = c.iovLen := by
  have hlen : ∀ v, (c.bytesOf mem v).length = v.len := by
    intro v
    unfold bytesOf
    split <;> simp
  unfold iovBytes iovLen
  split <;> simp [hlen]

/-- The gathered bytes begin with the printed text. -/
theorem Prepared.iovBytes (h : c.Prepared) (mem : Int → UInt8) :
    ∃ w rest, c.iovBytes mem = (capitalH :: w) ++ rest ∧ capitalH ∉ w ∧ w.length + 1 = c.writeIdx := by
  obtain ⟨w, htext, hw⟩ := h.heads
  have hlen := congrArg List.length htext
  rw [text, bytes_length, List.length_cons] at hlen
  refine ⟨w, if c.ivCount = 2 then c.bytesOf mem c.iv1 else [], ?_, hw, hlen.symm⟩
  rw [HttpConn.iovBytes, h.iv0, ← htext]
  rfl

theorem take_head {l : List UInt8} {n : Nat} (hn : 1 ≤ n) : (l.take n).head? = l.head? := by
  obtain ⟨n, rfl⟩ : ∃ k, n = k + 1 := ⟨n - 1, by omega⟩
  cases l <;> rfl

theorem Prepared.head (h : c.Prepared) (mem : Int → UInt8) :
    (c.iovBytes mem).head? = some capitalH := by
  obtain ⟨w, rest, hbytes, -⟩ := h.iovBytes mem
  rw [hbytes]
  rfl

/-- Whatever a call sends begins like the response, and only a call that asks for
    another sends nothing. -/
theorem writeLoop_head (h : c.Prepared) {a b : Int} {os : List Writev}
    (hos : ∀ o ∈ os, c.Possible o) {r : WriteCall} (hr : writeLoop mem c a b os = some r) :
    r.sent.head? = some capitalH ∨ (r.sent = [] ∧ r.armed = some .epollout) := by
  cases os with
  | nil => cases hr
  | cons o os =>
    rw [List.forall_mem_cons] at hos
    cases o with
    | eagain => cases hr; exact .inr ⟨rfl, rfl⟩
    | error => exact absurd hos.1 id
    | sent n =>
      have htake : ((c.iovBytes mem).take n).head? = some capitalH :=
        (take_head hos.1.1).trans (h.head mem)
      left
      simp only [writeLoop] at hr
      split at hr
      · cases hr
        rw [endWrite_sent]
        exact htake
      · obtain ⟨r', -, rfl⟩ := Option.map_eq_some_iff.mp hr
        rw [WriteCall.after, List.head?_append, htake]
        rfl

theorem Prepared.writeIdx_pos (h : c.Prepared) : 0 < c.writeIdx := by
  obtain ⟨w, rest, -, -, hw⟩ := h.iovBytes fun _ => 0
  omega

theorem write_prepared (h : c.Prepared) (os : List Writev) :
    c.write mem os = writeLoop mem c c.writeIdx 0 os :=
  if_neg (Nat.pos_iff_ne_zero.mp h.writeIdx_pos)

/-- What follows a call that asked for another, or nothing. -/
def later (mem : Int → UInt8) (r : WriteCall) : Option (List UInt8) :=
  if r.armed = some .epollout then respond mem r.conn r.rest else some []

theorem respond_later (os : List Writev) :
    respond mem c os = (c.write mem os).bind fun r => (later mem r).map (r.sent ++ ·) := by
  rw [respond_eq]
  cases c.write mem os with
  | none => rfl
  | some r =>
    simp only [Option.bind_some, later]
    split <;> simp

/-- What a finished response has sent begins like the response. -/
theorem respond_head (h : c.Prepared) {os : List Writev} (hos : ∀ o ∈ os, c.Possible o)
    {out : List UInt8} (hout : respond mem c os = some out) : out.head? = some capitalH := by
  induction hn : os.length using Nat.strong_induction_on generalizing os out with
  | _ n ih =>
    subst hn
    rw [respond_later, write_prepared h] at hout
    obtain ⟨r, hr, hlater⟩ := Option.bind_eq_some_iff.mp hout
    obtain ⟨out', hout', rfl⟩ := Option.map_eq_some_iff.mp hlater
    rw [List.head?_append]
    rcases writeLoop_head h hos hr with hhead | ⟨hnil, hagain⟩
    · rw [hhead]
      rfl
    · obtain ⟨hconn, o, used, rfl⟩ := writeLoop_again hr hagain
      rw [later, if_pos hagain, hconn] at hout'
      rw [hnil]
      exact ih _ (by grind) (fun o' ho' => hos o' (by simp [ho'])) hout' rfl

/-- The return of `writev` that decides about a response: the first that is no `EAGAIN`. -/
def firstReturn (os : List Writev) : Option Writev :=
  os.find? (· ≠ .eagain)

theorem respond_eagain (h : c.Prepared) (os : List Writev) :
    respond mem c (.eagain :: os) = respond mem c os := by
  rw [respond_later, write_prepared h]
  simp [writeLoop, later]

/-- Inside the printed text there is no second `H`. -/
theorem Prepared.getElem_ne (h : c.Prepared) (mem : Int → UInt8) {n : Nat} (hn : 1 ≤ n)
    (hlt : n < c.writeIdx) : (c.iovBytes mem)[n]? ≠ some capitalH := by
  obtain ⟨w, rest, hbytes, hw, hwlen⟩ := h.iovBytes mem
  obtain ⟨n, rfl⟩ : ∃ k, n = k + 1 := ⟨n - 1, by omega⟩
  rw [hbytes, List.cons_append, List.getElem?_cons_succ, List.getElem?_append_left (by omega)]
  exact fun he => hw (List.mem_of_getElem? he)

theorem Prepared.writeIdx_le (h : c.Prepared) : c.writeIdx ≤ c.iovLen := by
  rw [iovLen, h.iv0]
  exact Nat.le_add_right _ _

/-- More of the response from the start, after `n` bytes inside the printed text. -/
theorem restart_ne (h : c.Prepared) {n : Nat} (hn : 1 ≤ n) (hlt : n < c.writeIdx)
    {tail : List UInt8} (htail : tail.head? = some capitalH) :
    (c.iovBytes mem).take n ++ tail ≠ c.iovBytes mem := by
  intro he
  have hle : n ≤ (c.iovBytes mem).length := by
    have := h.writeIdx_le
    rw [iovBytes_length]
    omega
  have hdrop : (c.iovBytes mem).drop n = tail := by
    have hd := congrArg (List.drop n) he
    rw [List.drop_left' (List.length_take_of_le hle)] at hd
    exact hd.symm
  refine h.getElem_ne mem hn hlt ?_
  rw [← List.head?_drop, hdrop, htail]

/-- A response whose first part is `n` bytes. If that part ends the loop, it is all
    that is sent. If not, the next part starts the response over. -/
theorem respond_sent (h : c.Prepared) {n : Nat} {os : List Writev}
    (hos : ∀ o ∈ Writev.sent n :: os, c.Possible o) {out : List UInt8}
    (hout : respond mem c (.sent n :: os) = some out) :
    out = c.iovBytes mem ↔ n = c.iovLen := by
  obtain ⟨⟨hn, hle, -⟩, hos⟩ := List.forall_mem_cons.mp hos
  have hlen := iovBytes_length c mem
  rw [respond_later, write_prepared h, writeLoop] at hout
  by_cases hend : (c.writeIdx : Int) - n ≤ 0 + n
  · have hsent : out = (c.iovBytes mem).take n := by
      rw [if_pos hend] at hout
      simpa [later] using hout.symm
    constructor
    · intro he
      have htake := congrArg List.length (hsent.symm.trans he)
      rw [List.length_take] at htake
      omega
    · rintro rfl
      rw [hsent, ← hlen, List.take_length]
  · have hlt : n < c.writeIdx := by omega
    have hidx := h.writeIdx_le
    rw [if_neg hend] at hout
    obtain ⟨r, hr, hlater⟩ := Option.bind_eq_some_iff.mp hout
    obtain ⟨r', hr', rfl⟩ := Option.map_eq_some_iff.mp hr
    obtain ⟨out', hout', rfl⟩ := Option.map_eq_some_iff.mp hlater
    have htail : (r'.sent ++ out').head? = some capitalH := by
      rw [List.head?_append]
      rcases writeLoop_head h hos hr' with hhead | ⟨hnil, hagain⟩
      · rw [hhead]
        rfl
      · obtain ⟨hconn, o, used, rfl⟩ := writeLoop_again hr' hagain
        rw [later, WriteCall.after, if_pos hagain, hconn] at hout'
        rw [hnil]
        exact respond_head h (fun o' ho' => hos o' (by simp [ho'])) hout'
    refine iff_of_false ?_ (by omega)
    rw [WriteCall.after, List.append_assoc]
    exact restart_ne h hn hlt htail

/-- A finished response has sent exactly the bytes of the iovecs if and only if the
    first `writev` that sends anything takes all of them. -/
theorem respond_exact_iff (mem : Int → UInt8) (c : HttpConn) (ret : HttpCode)
    (hidx : c.writeIdx = 0) (hprep : (c.processWrite ret).2 = true) (os : List Writev)
    (hos : ∀ o ∈ os, (c.processWrite ret).1.Possible o) (out : List UInt8)
    (hout : respond mem (c.processWrite ret).1 os = some out) :
    out = (c.processWrite ret).1.iovBytes mem ↔
      firstReturn os = some (.sent (c.processWrite ret).1.iovLen) := by
  have h := processWrite_prepared hidx hprep
  generalize (c.processWrite ret).1 = d at *
  induction os with
  | nil =>
    rw [respond_later, write_prepared h] at hout
    cases hout
  | cons o os ih =>
    cases o with
    | eagain =>
      rw [respond_eagain h] at hout
      exact ih (fun o ho => hos o (List.mem_cons_of_mem _ ho)) hout
    | error => exact absurd (hos _ List.mem_cons_self) id
    | sent n =>
      rw [respond_sent h hos hout]
      simp [firstReturn]

/-- The page for a missing file, sent in one part after a full socket. -/
theorem respond_exact_page :
    (blank.processWrite .noResource).1.text =
        ((blank.processWrite .noResource).1.iovBytes fun _ => 0) ↔
      firstReturn [.eagain, .sent 114] =
        some (.sent (blank.processWrite .noResource).1.iovLen) :=
  respond_exact_iff (fun _ => 0) blank .noResource rfl (by decide +kernel) _ (by decide +kernel) _
    (by decide +kernel)

/-- The page for a missing file is taken for sent after 100 of its 114 bytes. -/
theorem short_write_truncates :
    ∃ out, respond (fun _ => 0) (blank.processWrite .noResource).1 [.sent 100] = some out ∧
      out ≠ (blank.processWrite .noResource).1.iovBytes fun _ => 0 :=
  ⟨((blank.processWrite .noResource).1.iovBytes fun _ => 0).take 100, by decide +kernel,
    by decide +kernel⟩

end HttpConn

end Http
