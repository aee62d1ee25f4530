-- SUMMARY: The CGI connection acts on the first line end of the stream however it is cut, and its calls over every run: what is read, checked, executed and closed.
import LinuxLearning.Common.Run
import LinuxLearning.CgiConn.Conn

/-!
# The requests of the CGI server

A connection has only been read (`Reads`), or it has come to an end (`Ends`): by a `recv`
that gives nothing, or by acting on the first line end of what it has received. No call of
`process` faults, and each leads from the one to the one or the other.
-/

namespace Cgi

open Memory CString Transition

variable {fd : Int} {s bs name stream : List UInt8} {calls acts before after : List Call} {c d : CgiConn}
  {m : Mem} {p q i n : Nat} {a : Answers}

/-! ## Line ends -/

/-- A line end begins at `p`. -/
def CrlfAt (s : List UInt8) (p : Nat) : Prop :=
  s[p]? = some cr ∧ s[p + 1]? = some lf

/-- The first line end begins at `p`. -/
def FirstCrlf (s : List UInt8) (p : Nat) : Prop :=
  CrlfAt s p ∧ ∀ q, q < p → ¬ CrlfAt s q

/-- The bytes before `p`, up to the first NUL. -/
def nameAt (s : List UInt8) (p : Nat) : List UInt8 :=
  (s.take p).takeWhile (· != 0)

theorem CrlfAt.lt (h : CrlfAt s p) : p + 1 < s.length :=
  (List.getElem?_eq_some_iff.mp h.2).1

theorem CrlfAt.append (h : CrlfAt s p) (bs : List UInt8) : CrlfAt (s ++ bs) p := by
  have hlt := h.lt
  rw [CrlfAt, List.getElem?_append_left (by omega), List.getElem?_append_left hlt]
  exact h

theorem CrlfAt.of_append (h : CrlfAt (s ++ bs) p) (hlt : p + 1 < s.length) : CrlfAt s p := by
  rw [CrlfAt, List.getElem?_append_left (by omega), List.getElem?_append_left hlt] at h
  exact h

/-- Whether the first line end lies in a part of the stream does not depend on the rest. -/
theorem firstCrlf_append : FirstCrlf s p ↔ FirstCrlf (s ++ bs) p ∧ p + 1 < s.length := by
  constructor
  · rintro ⟨h, hfirst⟩
    have hlt := h.lt
    exact ⟨⟨h.append bs, fun q hq hat => hfirst q hq (hat.of_append (by omega))⟩, hlt⟩
  · rintro ⟨⟨h, hfirst⟩, hlt⟩
    exact ⟨h.of_append hlt, fun q hq hat => hfirst q hq (hat.append bs)⟩

theorem FirstCrlf.unique (hp : FirstCrlf s p) (hq : FirstCrlf s q) : p = q := by
  rcases Nat.lt_trichotomy p q with h | h | h
  · exact absurd hp.1 (hq.2 p h)
  · exact h
  · exact absurd hq.1 (hp.2 q h)

theorem nameAt_append (h : p ≤ s.length) : nameAt (s ++ bs) p = nameAt s p := by
  rw [nameAt, List.take_append_of_le_length h, nameAt]

/-! ## The buffer -/

/-- The buffer holds the bytes that were received, and NULs behind them. -/
structure Filled (fd : Int) (s : List UInt8) (c : CgiConn) : Prop where
  sockfd : c.sockfd = fd
  readIdx : c.readIdx = s.length
  bound : s.length < bufferSize
  text : bytes c.buf 0 s.length = s
  rest : ∀ i, s.length ≤ i → i < bufferSize → c.buf i = 0

theorem init_filled (c : CgiConn) (fd : Int) : Filled fd [] (c.init fd) where
  sockfd := rfl
  readIdx := rfl
  bound := by decide
  text := rfl
  rest i _ hi := if_pos hi

namespace CgiConn

theorem fill_ok (h : Filled fd s c) (hlen : (s ++ bs).length < bufferSize) :
    ∃ d, c.fill bs = .ok d ∧ Filled fd (s ++ bs) d := by
  have hlen' := hlen
  rw [List.length_append] at hlen
  refine ⟨_, if_pos (by rw [h.readIdx]; omega), h.sockfd, ?_, hlen', ?_, fun i hi hib => ?_⟩
  · simp only [h.readIdx, List.length_append]
  · simp only [h.readIdx]
    rw [List.length_append, bytes_add, Nat.zero_add, bytes_blit,
      bytes_congr fun i _ hi => blit_of_lt _ _ (by omega), h.text]
  · rw [List.length_append] at hi
    simp only [h.readIdx]
    rw [blit_apply, dif_neg (by omega)]
    exact h.rest i (by omega) hib

/-- The buffer is a C string at all times. -/
theorem cstring_ok (h : Filled fd s c) : cstring bufferSize c.buf 0 = .ok (s.takeWhile (· != 0)) := by
  refine cstring_text (TextAt.of_bytes h.text (h.rest _ (by omega) ?_) ?_)
  · rw [Nat.zero_add]
    exact h.bound
  · rw [Nat.zero_add]
    exact h.bound

theorem getElem?_of_bytes (h : bytes m 0 s.length = s) (hi : i < s.length) : s[i]? = some (m i) := by
  have hget := get_of_bytes (l := s) (r := []) (by rw [h, List.append_nil]) i hi
  rw [List.getElem?_eq_getElem hi, ← hget, Nat.zero_add]

theorem endsLine_ok (h : bytes m 0 s.length = s) (hs : s.length < bufferSize) (hi : i < s.length) :
    ∃ b, endsLine m i = .ok b ∧ (b = true ↔ ∃ p, i = p + 1 ∧ CrlfAt s p) := by
  cases i with
  | zero => exact ⟨false, rfl, by simp⟩
  | succ p =>
    have hload : ∀ j, j ≤ p + 1 → load bufferSize m j = .ok (m j) := fun j hj => if_pos (by omega)
    have hat : (∃ q, p + 1 = q + 1 ∧ CrlfAt s q) ↔ m p = cr ∧ m (p + 1) = lf := by
      rw [show (∃ q, p + 1 = q + 1 ∧ CrlfAt s q) ↔ CrlfAt s p from
        ⟨fun ⟨q, hq, h⟩ => Nat.succ.inj hq ▸ h, fun h => ⟨p, rfl, h⟩⟩]
      rw [CrlfAt, getElem?_of_bytes h (by omega), getElem?_of_bytes h hi, Option.some.injEq, Option.some.injEq]
    rw [hat]
    by_cases hcr : m p = cr
    · exact ⟨m (p + 1) == lf, by simp [endsLine, hload, hcr], by simp [hcr]⟩
    · exact ⟨false, by simp [endsLine, hload, hcr], by simp [hcr]⟩

/-- The scan stops behind the first line end that ends in its range, or at the end. -/
theorem scanLoop_ok (h : bytes m 0 s.length = s) (hs : s.length < bufferSize) (hi : i + n = s.length) :
    (scanLoop m n i = .ok s.length ∧ ∀ p, i ≤ p + 1 → ¬ CrlfAt s p) ∨
    (∃ p, scanLoop m n i = .ok (p + 1) ∧ CrlfAt s p ∧ ∀ q, i ≤ q + 1 → q < p → ¬ CrlfAt s q) := by
  induction n generalizing i with
  | zero =>
    refine .inl ⟨by rw [← hi]; rfl, fun p hp hat => ?_⟩
    have := hat.lt
    omega
  | succ n ih =>
    obtain ⟨b, hb, hiff⟩ := endsLine_ok h hs (show i < s.length by omega)
    cases b with
    | true =>
      obtain ⟨p, rfl, hat⟩ := hiff.mp rfl
      exact .inr ⟨p, by simp [scanLoop, hb], hat, fun q hq hqp => by omega⟩
    | false =>
      have hnot : ∀ q, i = q + 1 → ¬ CrlfAt s q := fun q hq hat => by
        simpa using hiff.mpr ⟨q, hq, hat⟩
      have hstep : scanLoop m (n + 1) i = scanLoop m n (i + 1) := by simp [scanLoop, hb]
      rw [hstep]
      rcases ih (show i + 1 + n = s.length by omega) with ⟨hrun, hnone⟩ | ⟨p, hrun, hat, hfirst⟩
      · refine .inl ⟨hrun, fun q hq => ?_⟩
        rcases hq.eq_or_lt with hq | hq
        · exact hnot q hq
        · exact hnone q hq
      · refine .inr ⟨p, hrun, hat, fun q hq hqp => ?_⟩
        rcases hq.eq_or_lt with hq | hq
        · exact hnot q hq
        · exact hfirst q hq hqp

end CgiConn

/-! ## The calls -/

/-- What `recv` is asked for behind `s`. -/
def room (s : List UInt8) : Int :=
  bufferSize - 1 - s.length

/-- The calls of a connection that has only been read, and what was received. -/
inductive Reads (fd : Int) : List UInt8 → List Call → Prop where
  | nil : Reads fd [] []
  | again {s : List UInt8} {calls : List Call} :
      Reads fd s calls → Reads fd s (calls ++ [.recv fd (room s) .eagain])
  | data {s bs : List UInt8} {calls : List Call} :
      Reads fd s calls → (∀ p, ¬ CrlfAt (s ++ bs) p) →
      Reads fd (s ++ bs) (calls ++ [.recv fd (room s) (.data bs)])

/-- The calls for a line end behind `name`. -/
inductive Acts (fd : Int) (name : List UInt8) : List Call → Prop where
  | missing : Acts fd name [.access name false, .removefd fd]
  | failed : Acts fd name [.access name true, .fork (-1), .removefd fd]
  | parent {pid : Int} : 0 < pid → Acts fd name [.access name true, .fork pid, .removefd fd]
  | child {pid : Int} : ¬ (pid = -1 ∨ 0 < pid) → Acts fd name
      [.access name true, .fork pid, .close stdoutFileno, .dup fd, .execl name, .exit]

/-- The calls of a connection that has come to its end. -/
inductive Ends (fd : Int) : List UInt8 → List Call → Prop where
  | closed {s : List UInt8} {calls : List Call} {r : Recv} : Reads fd s calls → r = .closed ∨ r = .error →
      Ends fd s (calls ++ [.recv fd (room s) r, .removefd fd])
  | acted {s bs : List UInt8} {calls acts : List Call} {p : Nat} : Reads fd s calls →
      FirstCrlf (s ++ bs) p → Acts fd (nameAt (s ++ bs) p) acts →
      Ends fd (s ++ bs) (calls ++ .recv fd (room s) (.data bs) :: acts)

theorem Reads.no_crlf (h : Reads fd s calls) : ∀ p, ¬ CrlfAt s p := by
  induction h with
  | nil => exact fun p hat => absurd hat.lt (Nat.not_lt_zero _)
  | again _ ih => exact ih
  | data _ hnone _ => exact hnone

namespace CgiConn

theorem act_ok (hfd : c.sockfd = fd) (h : TextAt bufferSize c.buf 0 name) :
    ∃ acts, c.act a = .ok acts ∧ Acts fd name acts := by
  have hname := cstring_text h
  subst hfd
  cases hfound : a.found name with
  | false => exact ⟨_, by simp [act, hname, hfound], .missing⟩
  | true =>
    by_cases hfail : a.pid = -1
    · exact ⟨_, by simp [act, hname, hfound, hfail], .failed⟩
    · by_cases hpid : 0 < a.pid
      · exact ⟨_, by simp [act, hname, hfound, hfail, hpid], .parent hpid⟩
      · exact ⟨_, by simp [act, hname, hfound, hfail, hpid], .child (not_or.mpr ⟨hfail, hpid⟩)⟩

/-- Where `process` leaves the object when it has made the calls: the connection has only been
    read, or has come to its end. -/
def Leaves (fd : Int) (before : List Call) (r : CgiConn × List Call) : Prop :=
  ∃ s, r.1.sockfd = fd ∧ r.1.readIdx = s.length ∧ s.length < bufferSize ∧
    (Filled fd s r.1 ∧ Reads fd s (before ++ r.2) ∨ Ends fd s (before ++ r.2))

/-- The line end is cut off, and the object acts on what is before it. -/
theorem cut_act_ok (h : Filled fd s c) (hat : CrlfAt s p) :
    ∃ m acts, store bufferSize c.buf ((p + 1 : Nat) - 1) 0 = .ok m ∧
      act { c with buf := m } a = .ok acts ∧ Acts fd (nameAt s p) acts := by
  have hlt := hat.lt
  have hbound := h.bound
  have hstore : store bufferSize c.buf ((p + 1 : Nat) - 1) 0 = .ok (Function.update c.buf p 0) := by
    rw [store, if_pos (by omega)]
    simp
  have htake : bytes c.buf 0 p = s.take p := by
    have htext := h.text
    rw [show s.length = p + (s.length - p) by omega, bytes_add] at htext
    have hsplit := congrArg (List.take p) htext
    rwa [List.take_left' (by simp)] at hsplit
  have htext : TextAt bufferSize (Function.update c.buf p 0) 0 (nameAt s p) := by
    refine TextAt.of_bytes (n := p) ?_ ?_ (by omega)
    · rw [bytes_congr fun i _ hi => Function.update_of_ne (by omega) .., htake]
    · rw [Nat.zero_add, Function.update_self]
  obtain ⟨acts, hacts, hshape⟩ := act_ok (c := { c with buf := Function.update c.buf p 0 }) (a := a) h.sockfd htext
  exact ⟨_, acts, hstore, hacts, hshape⟩

/-- A call of `process` reads on, or it ends the connection. -/
theorem processLoop_ok {recvs : List Recv} (h : Filled fd s c) (hreads : Reads fd s before)
    (hfits : Fits (room s) recvs) : ∃ r, c.processLoop a recvs = .ok r ∧ Leaves fd before r := by
  induction recvs generalizing c s before with
  | nil =>
    refine ⟨_, rfl, s, h.sockfd, h.readIdx, h.bound, .inl ⟨h, ?_⟩⟩
    rw [h.sockfd, h.readIdx]
    exact hreads.again
  | cons ret recvs ih =>
    cases ret with
    | closed =>
      refine ⟨_, rfl, s, h.sockfd, h.readIdx, h.bound, .inr ?_⟩
      rw [h.sockfd, h.readIdx]
      exact .closed hreads (.inl rfl)
    | error =>
      refine ⟨_, rfl, s, h.sockfd, h.readIdx, h.bound, .inr ?_⟩
      rw [h.sockfd, h.readIdx]
      exact .closed hreads (.inr rfl)
    | eagain =>
      refine ⟨_, rfl, s, h.sockfd, h.readIdx, h.bound, .inl ⟨h, ?_⟩⟩
      rw [h.sockfd, h.readIdx]
      exact hreads.again
    | data bs =>
      obtain ⟨hbs, hlen, hfits⟩ := hfits
      have hlen' : (s ++ bs).length < bufferSize := by
        rw [room] at hlen
        rw [List.length_append]
        omega
      obtain ⟨d, hd, hfilled⟩ := fill_ok h hlen'
      have hpos : 0 < bs.length := List.length_pos_iff.mpr hbs
      have hold : ∀ q, q + 1 < s.length → ¬ CrlfAt (s ++ bs) q := fun q hq hat =>
        hreads.no_crlf q (hat.of_append hq)
      have hscan := scanLoop_ok (i := c.readIdx) (n := bs.length) hfilled.text hlen'
        (by rw [h.readIdx, List.length_append])
      have hroom : (bufferSize : Int) - 1 - c.readIdx = room s := by rw [h.readIdx, room]
      have hread := hfilled.readIdx
      rw [processLoop, hroom, h.sockfd, hd, ok_bind, cstring_ok hfilled, ok_bind]
      rcases hscan with ⟨hrun, hnone⟩ | ⟨p, hrun, hat, hfirst⟩
      · -- no line end yet
        have hnone' : ∀ q, ¬ CrlfAt (s ++ bs) q := fun q => by
          rcases Nat.lt_or_ge (q + 1) s.length with hq | hq
          · exact hold q hq
          · exact hnone q (h.readIdx ▸ hq)
        have hfits' : Fits (room (s ++ bs)) recvs := by
          rwa [room, List.length_append, Int.natCast_add, ← Int.sub_sub]
        obtain ⟨⟨e, calls⟩, hloop, t, hleaves⟩ := ih hfilled (hreads.data hnone') hfits'
        rw [List.append_assoc] at hleaves
        rw [hrun, ok_bind, if_pos hread.symm, hloop]
        exact ⟨_, rfl, t, hleaves⟩
      · have hplt := hat.lt
        obtain ⟨m, acts, hstore, hacts, hshape⟩ := cut_act_ok (a := a) hfilled hat
        have hfirst' : FirstCrlf (s ++ bs) p := ⟨hat, fun q hq => by
          rcases Nat.lt_or_ge (q + 1) s.length with hqs | hqs
          · exact hold q hqs
          · exact hfirst q (h.readIdx ▸ hqs) hq⟩
        rw [hrun, ok_bind, if_neg (by omega), hstore, ok_bind]
        simp only [hacts, ok_bind]
        exact ⟨_, rfl, _, hfilled.sockfd, hread, hlen', .inr (.acted hreads hfirst' hshape)⟩

theorem process_ok (h : Filled fd s c) (hreads : Reads fd s before) (hfits : Fits (room s) a.recvs) :
    ∃ r, c.process a = .ok r ∧ Leaves fd before r :=
  processLoop_ok h hreads hfits

end CgiConn

/-! ## What the calls say -/

/-- The bytes that were received. -/
def received (calls : List Call) : List UInt8 :=
  calls.flatMap fun call => match call with
    | .recv _ _ (.data bs) => bs
    | _ => []

/-- The programs that were checked for. -/
def accessed (calls : List Call) : List (List UInt8) :=
  calls.filterMap fun call => match call with
    | .access name _ => some name
    | _ => none

theorem received_append : received (before ++ after) = received before ++ received after :=
  List.flatMap_append ..

theorem accessed_append : accessed (before ++ after) = accessed before ++ accessed after :=
  List.filterMap_append ..

/-- Each `recv` asks for what is left of the buffer, and comes before any end of the connection. -/
def Orderly (fd : Int) (calls : List Call) : Prop :=
  ∀ before call after, calls = before ++ call :: after → ∀ fd' n r, call = .recv fd' n r →
    fd' = fd ∧ n = room (received before) ∧ .removefd fd ∉ before ∧ accessed before = []

theorem Reads.recvs (h : Reads fd s calls) :
    ∀ call ∈ calls, ∃ n r, call = .recv fd n r ∧ r ≠ .closed ∧ r ≠ .error := by
  induction h with
  | nil => nofun
  | again _ ih =>
    rw [List.forall_mem_append, List.forall_mem_singleton]
    exact ⟨ih, _, _, rfl, nofun, nofun⟩
  | data _ _ ih =>
    rw [List.forall_mem_append, List.forall_mem_singleton]
    exact ⟨ih, _, _, rfl, nofun, nofun⟩

theorem Reads.received (h : Reads fd s calls) : received calls = s := by
  induction h with
  | nil => rfl
  | again _ ih => rw [received_append, ih]; exact List.append_nil _
  | data _ _ ih => rw [received_append, ih]; simp [Cgi.received]

theorem Reads.not_mem (h : Reads fd s calls) {call : Call} (hcall : ∀ n r, call ≠ .recv fd n r) :
    call ∉ calls := by
  intro hmem
  obtain ⟨n, r, heq, -⟩ := h.recvs _ hmem
  exact hcall n r heq

theorem Reads.accessed (h : Reads fd s calls) : accessed calls = [] := by
  refine List.filterMap_eq_nil_iff.mpr fun call hmem => ?_
  obtain ⟨n, r, rfl, -⟩ := h.recvs _ hmem
  rfl

theorem Reads.orderly_append (h : Reads fd s calls) (hord : Orderly fd calls) {r : Recv} {rest : List Call}
    (hrest : ∀ call ∈ rest, ∀ fd' n r', call ≠ .recv fd' n r') :
    Orderly fd (calls ++ .recv fd (room s) r :: rest) := by
  refine forall_split_append hord fun before call after heq fd' n r' hcall => ?_
  cases before with
  | nil =>
    obtain ⟨rfl, -⟩ := List.cons.inj heq
    cases hcall
    rw [List.append_nil, h.received]
    exact ⟨rfl, rfl, h.not_mem nofun, h.accessed⟩
  | cons call' before =>
    obtain ⟨-, rfl⟩ := List.cons.inj heq
    exact absurd hcall (hrest call (by simp) fd' n r')

theorem Reads.orderly (h : Reads fd s calls) : Orderly fd calls := by
  induction h with
  | nil => exact fun before call after heq => by simp at heq
  | again h ih => exact h.orderly_append ih nofun
  | data h _ ih => exact h.orderly_append ih nofun

theorem Acts.received (h : Acts fd name acts) : received acts = [] := by
  cases h <;> rfl

theorem Acts.accessed (h : Acts fd name acts) : accessed acts = [name] := by
  cases h <;> rfl

theorem Acts.no_recv (h : Acts fd name acts) : ∀ call ∈ acts, ∀ fd' n r, call ≠ .recv fd' n r := by
  cases h <;> simp

theorem Ends.received (h : Ends fd s calls) : received calls = s := by
  cases h with
  | closed hreads hr =>
    rw [received_append, hreads.received]
    rcases hr with rfl | rfl <;> exact List.append_nil _
  | acted hreads _ hacts =>
    rw [received_append, hreads.received]
    exact congrArg _ ((congrArg _ hacts.received).trans (List.append_nil _))

theorem Ends.orderly (h : Ends fd s calls) : Orderly fd calls := by
  cases h with
  | closed hreads _ => exact hreads.orderly_append hreads.orderly (by simp)
  | acted hreads _ hacts => exact hreads.orderly_append hreads.orderly hacts.no_recv

/-- No line end was received and nothing was checked for, or the name before the first one was. -/
def Acted (s : List UInt8) (calls : List Call) : Prop :=
  (accessed calls = [] ∧ ∀ p, ¬ CrlfAt s p) ∨ ∃ p, FirstCrlf s p ∧ accessed calls = [nameAt s p]

theorem Ends.acted_iff (h : Ends fd s calls) : Acted s calls := by
  cases h with
  | closed hreads _ =>
    refine .inl ⟨?_, hreads.no_crlf⟩
    rw [accessed_append, hreads.accessed]
    rfl
  | acted hreads hfirst hacts =>
    refine .inr ⟨_, hfirst, ?_⟩
    rw [accessed_append, hreads.accessed]
    exact hacts.accessed

theorem Acted.mem_iff (h : Acted s calls) (hpre : s <+: stream) :
    name ∈ accessed calls ↔ ∃ p, FirstCrlf stream p ∧ p + 2 ≤ s.length ∧ name = nameAt stream p := by
  obtain ⟨rest, rfl⟩ := hpre
  rcases h with ⟨hnil, hnone⟩ | ⟨p, hfirst, hone⟩
  · rw [hnil]
    refine iff_of_false (by simp) ?_
    rintro ⟨p, hfirst, hlt, -⟩
    exact hnone p (firstCrlf_append.mpr ⟨hfirst, hlt⟩).1
  · rw [hone, List.mem_singleton]
    have hlt := hfirst.1.lt
    constructor
    · rintro rfl
      exact ⟨p, (firstCrlf_append.mp hfirst).1, hlt, (nameAt_append (by omega)).symm⟩
    · rintro ⟨q, hfirst', hlt', rfl⟩
      obtain rfl := hfirst.unique (firstCrlf_append.mpr ⟨hfirst', hlt'⟩)
      exact nameAt_append (by omega)

theorem Acted.once (h : Acted s calls) : (accessed calls).length ≤ 1 := by
  rcases h with ⟨hnil, -⟩ | ⟨p, -, hone⟩
  · rw [hnil]
    exact Nat.zero_le 1
  · rw [hone]
    exact Nat.le_refl 1

/-- What follows `fork`: where it returns 0, the new process takes the socket for its standard
    output and becomes the program. -/
def afterFork (fd : Int) (name : List UInt8) (pid : Int) : List Call :=
  if pid = -1 ∨ 0 < pid then [.removefd fd]
  else [.close stdoutFileno, .dup fd, .execl name, .exit]

/-- The name that was checked for is executed if it was found, and the socket is closed once if
    there is a reason to. -/
structure Finished (fd : Int) (calls : List Call) : Prop where
  missing : ∀ name, .access name false ∈ calls → ∃ before, calls = before ++ [.access name false, .removefd fd]
  found : ∀ name, .access name true ∈ calls →
    ∃ before pid, calls = before ++ .access name true :: .fork pid :: afterFork fd name pid
  executes : ∀ name, .execl name ∈ calls → .access name true ∈ calls
  closes_once : calls.count (.removefd fd) ≤ 1
  closes : .removefd fd ∈ calls ↔
    (∃ n r, .recv fd n r ∈ calls ∧ (r = .closed ∨ r = .error)) ∨ (accessed calls ≠ [] ∧ .exit ∉ calls)

theorem Reads.finished (h : Reads fd s calls) : Finished fd calls where
  missing name hmem := absurd hmem (h.not_mem (by simp))
  found name hmem := absurd hmem (h.not_mem (by simp))
  executes name hmem := absurd hmem (h.not_mem (by simp))
  closes_once := by
    rw [List.count_eq_zero.mpr (h.not_mem (by simp))]
    exact Nat.zero_le 1
  closes := by
    refine iff_of_false (h.not_mem (by simp)) ?_
    rintro (⟨n, r, hmem, hr⟩ | ⟨hne, -⟩)
    · obtain ⟨n', r', heq, hclosed, herror⟩ := h.recvs _ hmem
      cases heq
      exact hr.elim hclosed herror
    · exact hne h.accessed

theorem Acts.of_missing (h : Acts fd name acts) {name' : List UInt8} (hmem : .access name' false ∈ acts) :
    acts = [.access name' false, .removefd fd] := by
  cases h <;> simp_all

theorem Acts.of_found (h : Acts fd name acts) {name' : List UInt8} (hmem : .access name' true ∈ acts) :
    ∃ pid, acts = .access name' true :: .fork pid :: afterFork fd name' pid := by
  cases h with
  | missing => simp at hmem
  | failed =>
    obtain rfl : name' = name := by simpa using hmem
    exact ⟨-1, by rw [afterFork, if_pos (.inl rfl)]⟩
  | @parent pid hpid =>
    obtain rfl : name' = name := by simpa using hmem
    exact ⟨pid, by rw [afterFork, if_pos (.inr hpid)]⟩
  | @child pid hpid =>
    obtain rfl : name' = name := by simpa using hmem
    exact ⟨pid, by rw [afterFork, if_neg hpid]⟩

theorem Acts.executes (h : Acts fd name acts) {name' : List UInt8} (hmem : .execl name' ∈ acts) :
    .access name' true ∈ acts := by
  cases h <;> simp_all

theorem Acts.closes_once (h : Acts fd name acts) : acts.count (.removefd fd) ≤ 1 := by
  cases h <;> simp

theorem Acts.closes (h : Acts fd name acts) : .removefd fd ∈ acts ↔ .exit ∉ acts := by
  cases h <;> simp

theorem Ends.finished (h : Ends fd s calls) : Finished fd calls := by
  cases h with
  | @closed s calls r hreads hr =>
    have hnot : .removefd fd ∉ calls := hreads.not_mem nofun
    refine ⟨fun name hmem => ?_, fun name hmem => ?_, fun name hmem => ?_, ?_,
      iff_of_true (by simp) (.inl ⟨room s, r, by simp, hr⟩)⟩
    · simp [hreads.not_mem] at hmem
    · simp [hreads.not_mem] at hmem
    · simp [hreads.not_mem] at hmem
    · simp [List.count_append, List.count_eq_zero.mpr hnot]
  | @acted s bs calls acts p hreads _ hacts =>
    have hnot : .removefd fd ∉ calls := hreads.not_mem nofun
    have hexit : .exit ∉ calls := hreads.not_mem nofun
    refine ⟨fun name hmem => ?_, fun name hmem => ?_, fun name hmem => ?_, ?_, ?_⟩
    · have hread : .access name false ∉ calls := hreads.not_mem nofun
      simp only [List.mem_append, hread, false_or, List.mem_cons, reduceCtorEq] at hmem
      exact ⟨calls ++ [.recv fd (room s) (.data bs)], by simp [hacts.of_missing hmem]⟩
    · have hread : .access name true ∉ calls := hreads.not_mem nofun
      simp only [List.mem_append, hread, false_or, List.mem_cons, reduceCtorEq] at hmem
      obtain ⟨pid, hpid⟩ := hacts.of_found hmem
      exact ⟨calls ++ [.recv fd (room s) (.data bs)], pid, by simp [hpid]⟩
    · have hread : .execl name ∉ calls := hreads.not_mem nofun
      simp only [List.mem_append, hread, false_or, List.mem_cons, reduceCtorEq] at hmem
      simp [hacts.executes hmem]
    · rw [List.count_append, List.count_eq_zero.mpr hnot, Nat.zero_add, List.count_cons_of_ne (by simp)]
      exact hacts.closes_once
    · have hrecvs : ¬ ∃ n r, .recv fd n r ∈ calls ++ .recv fd (room s) (.data bs) :: acts ∧
          (r = .closed ∨ r = .error) := by
        rintro ⟨n, r, hmem, hr⟩
        rw [List.mem_append, List.mem_cons] at hmem
        rcases hmem with hmem | heq | hmem
        · obtain ⟨n', r', heq, hclosed, herror⟩ := hreads.recvs _ hmem
          cases heq
          exact hr.elim hclosed herror
        · cases heq
          exact hr.elim nofun nofun
        · exact hacts.no_recv _ hmem fd n r rfl
      have haccessed : accessed (calls ++ .recv fd (room s) (.data bs) :: acts) ≠ [] := by
        rw [accessed_append, hreads.accessed]
        intro hnil
        exact absurd (hacts.accessed.symm.trans hnil) (by simp)
      have hmem : ∀ call : Call, (∀ n r, call ≠ .recv fd n r) →
          (call ∈ calls ++ .recv fd (room s) (.data bs) :: acts ↔ call ∈ acts) := by
        intro call hcall
        simp [hreads.not_mem hcall, hcall]
      rw [hmem _ (by simp), hmem _ (by simp), hacts.closes]
      simp only [hrecvs, haccessed, false_or, ne_eq, not_false_eq_true, true_and]

/-- What a connection does with the stream that it receives a part of. -/
structure Serves (fd : Int) (stream : List UInt8) (st : State) : Prop where
  fill : st.conn.readIdx = (received st.calls).length
  bound : st.conn.readIdx ≤ bufferSize - 1
  handled : ∀ a : Answers, st.registered = true → st.exited = false →
    Fits (bufferSize - 1 - st.conn.readIdx) a.recvs → ∃ r, st.conn.process a = .ok r
  acts : ∀ name, name ∈ accessed st.calls ↔
    ∃ p, FirstCrlf stream p ∧ p + 2 ≤ (received st.calls).length ∧ name = nameAt stream p
  acts_once : (accessed st.calls).length ≤ 1
  missing : ∀ name, .access name false ∈ st.calls →
    ∃ before, st.calls = before ++ [.access name false, .removefd fd]
  found : ∀ name, .access name true ∈ st.calls →
    ∃ before pid, st.calls = before ++ .access name true :: .fork pid :: afterFork fd name pid
  executes : ∀ name, .execl name ∈ st.calls → .access name true ∈ st.calls
  reads : ∀ before fd' (n : Int) r after, st.calls = before ++ .recv fd' n r :: after →
    fd' = fd ∧ n = bufferSize - 1 - (received before).length ∧ .removefd fd ∉ before ∧ accessed before = []
  closes_once : st.calls.count (.removefd fd) ≤ 1
  closes : .removefd fd ∈ st.calls ↔
    (∃ n r, .recv fd n r ∈ st.calls ∧ (r = .closed ∨ r = .error)) ∨
    (accessed st.calls ≠ [] ∧ .exit ∉ st.calls)

/-- The invariant of a connection. -/
def Inv (fd : Int) (st : State) : Prop :=
  ∃ s, st.conn.sockfd = fd ∧ st.conn.readIdx = s.length ∧ s.length < bufferSize ∧
    (Filled fd s st.conn ∧ Reads fd s st.calls ∨
      Ends fd s st.calls ∧ (st.registered = false ∨ st.exited = true))

theorem Ends.over (h : Ends fd s calls) : .removefd fd ∈ calls ∨ .exit ∈ calls := by
  cases h with
  | closed _ _ => simp
  | acted _ _ hacts => cases hacts <;> simp

theorem init_inv (c : CgiConn) (fd : Int) : Inv fd (.init c fd) :=
  ⟨[], rfl, rfl, by decide, .inl ⟨init_filled c fd, .nil⟩⟩

theorem Step.inv {st st' : State} (h : Inv fd st) (hstep : Step st a st') : Inv fd st' := by
  obtain ⟨s, hfd, hread, -, h⟩ := h
  cases hstep with
  | process hreg hexit hfits hrun =>
    rcases h with ⟨hfilled, hreads⟩ | ⟨-, hover⟩
    swap
    · simp [hreg, hexit] at hover
    obtain ⟨r, hrun', t, hfd', hread', hbound, hleaves⟩ :=
      CgiConn.process_ok hfilled hreads (by rwa [room, ← hread])
    cases hrun.symm.trans hrun'
    refine ⟨t, hfd', hread', hbound, hleaves.imp_right fun hends => ⟨hends, ?_⟩⟩
    simp only [hfd, decide_eq_false_iff_not, not_not, decide_eq_true_eq]
    refine hends.over.imp (fun hmem => ?_) fun hmem => ?_
    · exact (List.mem_append.mp hmem).resolve_left (hreads.not_mem nofun)
    · exact (List.mem_append.mp hmem).resolve_left (hreads.not_mem nofun)

theorem Inv.serves {st : State} (h : Inv fd st) (hpre : received st.calls <+: stream) :
    Serves fd stream st := by
  obtain ⟨s, hfd, hread, hbound, h⟩ := h
  obtain ⟨hrec, hord, hacted, hfin⟩ : received st.calls = s ∧ Orderly fd st.calls ∧ Acted s st.calls ∧
      Finished fd st.calls := by
    rcases h with ⟨-, hreads⟩ | ⟨hends, -⟩
    · exact ⟨hreads.received, hreads.orderly, .inl ⟨hreads.accessed, hreads.no_crlf⟩, hreads.finished⟩
    · exact ⟨hends.received, hends.orderly, hends.acted_iff, hends.finished⟩
  refine ⟨hread.trans (congrArg _ hrec.symm), by omega, fun a hreg hexit hfits => ?_, fun name => ?_,
    hacted.once, hfin.missing, hfin.found, hfin.executes, fun before fd' n r after heq => hord before _ after heq fd' n r rfl,
    hfin.closes_once, hfin.closes⟩
  · rcases h with ⟨hfilled, hreads⟩ | ⟨-, hover⟩
    · obtain ⟨r, hrun, -⟩ := CgiConn.process_ok hfilled hreads (by rwa [room, ← hread])
      exact ⟨r, hrun⟩
    · simp [hreg, hexit] at hover
  · rw [hrec] at hpre ⊢
    exact hacted.mem_iff hpre

end Cgi
