-- SUMMARY: What parse_line computes: how the unread bytes of the buffer begin decides its status, and the scan resumes where it stopped.
import LinuxLearning.HttpConn.LineText

/-!
# The line scanner

`front` reads off a list of bytes whether it begins with a complete line, with the
start of one, or with a malformed line end. `Scanning` is what holds of the object
between two calls of the scanner, and `parseLine_spec` says that one call finds the
front of the bytes from `m_start_line` on, wherever the last call stopped.
-/

namespace Http

open Memory CString

/-- A byte that is no part of a line end. -/
def isPlain (b : UInt8) : Bool :=
  b != cr && b != lf

theorem plain_of_all {l : List UInt8} (h : l.all isPlain) : ∀ b ∈ l, isPlain b :=
  List.all_eq_true.mp h

/-- How the bytes from the start of a line on begin: `l` are the plain bytes. -/
inductive Front where
  | line (l rest : List UInt8)
  | more (l : List UInt8)
  | bad (l : List UInt8)
deriving Repr, DecidableEq

def front (u : List UInt8) : Front :=
  match u.dropWhile isPlain with
  | [] => .more (u.takeWhile isPlain)
  | [b] => if b = cr then .more (u.takeWhile isPlain) else .bad (u.takeWhile isPlain)
  | b :: b' :: rest =>
    if b = cr ∧ b' = lf then .line (u.takeWhile isPlain) rest else .bad (u.takeWhile isPlain)

namespace Front

/-- The plain bytes at the front. -/
def text : Front → List UInt8
  | .line l _ => l
  | .more l => l
  | .bad l => l

end Front

theorem front_text (u : List UInt8) : (front u).text = u.takeWhile isPlain := by
  unfold front
  split
  · rfl
  · split <;> rfl
  · split <;> rfl

theorem front_text_plain (u : List UInt8) : ∀ b ∈ (front u).text, isPlain b := by
  intro b hb
  rw [front_text] at hb
  exact List.mem_takeWhile_imp hb

theorem front_text_prefix (u : List UInt8) : (front u).text <+: u := by
  rw [front_text]
  exact List.takeWhile_prefix _

theorem front_line {u l rest : List UInt8} (h : front u = .line l rest) :
    u = l ++ cr :: lf :: rest := by
  have hsplit := List.takeWhile_append_dropWhile (p := isPlain) (l := u)
  unfold front at h
  split at h
  · cases h
  · split at h <;> cases h
  · rename_i b b' r hd
    split at h
    · rename_i hb
      cases h
      calc u = u.takeWhile isPlain ++ u.dropWhile isPlain := hsplit.symm
        _ = u.takeWhile isPlain ++ cr :: lf :: rest := by rw [hd, hb.1, hb.2]
    · cases h

/-- `front` after `k` plain bytes that are known already. -/
theorem front_append {l v : List UInt8} (hl : ∀ b ∈ l, isPlain b) :
    front (l ++ v) = match front v with
      | .line l' rest => .line (l ++ l') rest
      | .more l' => .more (l ++ l')
      | .bad l' => .bad (l ++ l') := by
  have ht : (l ++ v).takeWhile isPlain = l ++ v.takeWhile isPlain :=
    List.takeWhile_append_of_pos hl
  have hd : (l ++ v).dropWhile isPlain = v.dropWhile isPlain := by
    induction l with
    | nil => rfl
    | cons b l ih =>
      have hb := hl b (by simp)
      simp [hb, ih (fun x hx => hl x (List.mem_cons_of_mem _ hx))
        (List.takeWhile_append_of_pos fun x hx => hl x (List.mem_cons_of_mem _ hx))]
  simp only [front, hd, ht]
  split <;> (try split) <;> simp_all

/-- What follows the plain bytes of a malformed front is malformed whatever follows it. -/
theorem front_bad {u l : List UInt8} (h : front u = .bad l) :
    ∃ r, u = l ++ r ∧ ∀ p, front (r ++ p) = .bad [] := by
  have ht : u.takeWhile isPlain = l := by
    have := front_text u
    rw [h] at this
    exact this.symm
  rcases takeWhile_split isPlain u with ⟨-, hd⟩ | ⟨b, r, hu, hd, hb⟩
  · simp [front, hd] at h
  · refine ⟨b :: r, by rw [← ht]; exact hu, fun p => ?_⟩
    have hcl : b = cr ∨ b = lf := by
      simp only [isPlain, Bool.and_eq_false_iff, bne_eq_false_iff_eq] at hb
      exact hb
    simp only [front, hd] at h
    cases r with
    | nil =>
      have hne : b ≠ cr := by
        rintro rfl
        simp at h
      cases p <;> simp [front, hb, hne]
    | cons b' r =>
      have hne : ¬ (b = cr ∧ b' = lf) := by
        rintro ⟨rfl, rfl⟩
        simp at h
      simp [front, hb, hne]

/-- Plain bytes and a line end are a complete line. -/
theorem front_crlf {l : List UInt8} (hl : ∀ b ∈ l, isPlain b) (rest : List UInt8) :
    front (l ++ cr :: lf :: rest) = .line l rest := by
  rw [front_append hl]
  simp [front, isPlain]

/-- A complete line stays at the front when more bytes arrive. -/
theorem front_line_append {u l rest : List UInt8} (h : front u = .line l rest) (p : List UInt8) :
    front (u ++ p) = .line l (rest ++ p) := by
  have hl : ∀ b ∈ l, isPlain b := by
    have := front_text_plain u
    rwa [h] at this
  have hu : u ++ p = l ++ (cr :: lf :: (rest ++ p)) := by rw [front_line h]; simp
  rw [hu, front_crlf hl]

/-- So does a malformed line end. -/
theorem front_bad_append {u l : List UInt8} (h : front u = .bad l) (p : List UInt8) :
    front (u ++ p) = .bad l := by
  have hl : ∀ b ∈ l, isPlain b := by
    have := front_text_plain u
    rwa [h] at this
  obtain ⟨r, rfl, hr⟩ := front_bad h
  rw [List.append_assoc, front_append hl, hr p]
  simp

namespace HttpConn

variable {c : HttpConn}

/-- The bytes that no complete line has taken yet. -/
def pending (c : HttpConn) : List UInt8 :=
  bytes c.readBuf c.startLine (c.readIdx - c.startLine)

/-- What holds between two steps of the scanner: the three indices are in order,
    and what was scanned of the current line is plain. -/
structure Scanning (c : HttpConn) : Prop where
  start_le : c.startLine ≤ c.checkedIdx
  checked_le : c.checkedIdx ≤ c.readIdx
  read_le : c.readIdx ≤ readBufferSize
  plain : ∀ i, c.startLine ≤ i → i < c.checkedIdx → isPlain (c.readBuf i)
  prev : 0 < c.startLine → c.readBuf (c.startLine - 1) ≠ cr

/-- The object after a line that ends at `e`: the line end is zeroed and skipped. -/
def endLine (c : HttpConn) (e : Nat) : HttpConn :=
  { c with
    readBuf := Function.update (Function.update c.readBuf e 0) (e + 1) 0
    checkedIdx := e + 2 }

/-- The outcome of `parse_line` when the bytes from `s` on begin with the given front. -/
def scanned (c : HttpConn) (s : Nat) : Front → HttpConn × LineStatus
  | .line l _ => (c.endLine (s + l.length), .lineOk)
  | .more l => ({ c with checkedIdx := s + l.length }, .lineOpen)
  | .bad l => ({ c with checkedIdx := s + l.length }, .lineBad)

theorem parseLineFuel_front {v : List UInt8} (hv : bytes c.readBuf c.checkedIdx v.length = v)
    (hlen : c.checkedIdx + v.length = c.readIdx) (hread : c.readIdx ≤ readBufferSize)
    (hprev : 0 < c.checkedIdx → c.readBuf (c.checkedIdx - 1) ≠ cr) :
    parseLineFuel v.length c = .ok (c.scanned c.checkedIdx (front v)) := by
  induction v generalizing c with
  | nil => rfl
  | cons b v ih =>
    obtain ⟨hb, hv'⟩ := List.cons.inj (hv : bytes c.readBuf c.checkedIdx (v.length + 1) = b :: v)
    simp only [List.length_cons] at hlen
    have hload : c.loadBuf c.checkedIdx = .ok b := by
      rw [loadBuf, load, if_pos (by omega), hb]
    rw [List.length_cons, parseLineFuel, hload, ok_bind]
    by_cases hcr : b = cr
    · subst hcr
      rw [if_pos rfl]
      cases v with
      | nil =>
        rw [if_pos (by simpa using hlen)]
        simp [front, scanned, isPlain]
      | cons b' v =>
        have hb' : c.readBuf (c.checkedIdx + 1) = b' := (List.cons.inj hv').1
        simp only [List.length_cons] at hlen
        have hload' : c.loadBuf (c.checkedIdx + 1) = .ok b' := by
          rw [loadBuf, load, if_pos (by omega), hb']
        rw [if_neg (by omega), hload', ok_bind]
        by_cases hlf : b' = lf
        · subst hlf
          rw [if_pos rfl, storeBuf_nat (by omega), ok_bind, storeBuf_nat (by simp only; omega), ok_bind]
          simp [front, scanned, isPlain, endLine]
        · rw [if_neg hlf]
          simp [front, scanned, isPlain, hlf]
    by_cases hlf : b = lf
    · subst hlf
      have hfront : front (lf :: v) = .bad [] := by
        cases v <;> simp [front, isPlain, hcr]
      rw [if_neg hcr, if_pos rfl, hfront]
      -- a line feed behind a carriage return cannot be met first: the scan stops at the latter
      by_cases h1 : 1 < c.checkedIdx
      · have hload' : c.loadBuf (c.checkedIdx - 1) = .ok (c.readBuf (c.checkedIdx - 1)) := by
          rw [loadBuf, load, if_pos (by omega)]
        rw [if_pos h1, hload', ok_bind, if_neg (hprev (by omega))]
        rfl
      · rw [if_neg h1]
        rfl
    · have hplain : isPlain b := by simp [isPlain, hcr, hlf]
      have happ := front_append (l := [b]) (v := v) (by simpa using hplain)
      have hrec := ih (c := { c with checkedIdx := c.checkedIdx + 1 }) hv' (by simp; omega) hread
        (by intro _; simpa [hb] using hcr)
      rw [if_neg hcr, if_neg hlf, hrec]
      rw [List.singleton_append] at happ
      rw [happ]
      cases front v <;> simp [scanned, endLine, Nat.add_assoc, Nat.add_comm 1]

/-- One call of `parse_line` finds the front of the pending bytes, wherever the
    last one stopped. -/
theorem parseLine_spec (h : c.Scanning) :
    c.parseLine = .ok (c.scanned c.startLine (front c.pending)) := by
  obtain ⟨k, hk⟩ := Nat.exists_eq_add_of_le h.start_le
  obtain ⟨n, hn⟩ := Nat.exists_eq_add_of_le h.checked_le
  have hpend : c.pending = bytes c.readBuf c.startLine k ++ bytes c.readBuf c.checkedIdx n := by
    rw [pending, hk, ← bytes_add]
    congr 1
    omega
  have hplain : ∀ b ∈ bytes c.readBuf c.startLine k, isPlain b := by
    intro b hb
    simp only [bytes, List.mem_map, List.mem_range'_1] at hb
    obtain ⟨i, hi, rfl⟩ := hb
    exact h.plain i hi.1 (by omega)
  have hprev : 0 < c.checkedIdx → c.readBuf (c.checkedIdx - 1) ≠ cr := by
    intro hpos he
    by_cases hlt : c.startLine < c.checkedIdx
    · have := h.plain (c.checkedIdx - 1) (by omega) (by omega)
      simp [isPlain, he] at this
    · have := h.prev (by omega)
      rw [show c.startLine = c.checkedIdx by omega] at this
      exact this he
  have hscan := parseLineFuel_front (c := c) (v := bytes c.readBuf c.checkedIdx n)
    (by rw [bytes_length]) (by rw [bytes_length]; omega) h.read_le hprev
  rw [bytes_length] at hscan
  rw [parseLine, show c.readIdx - c.checkedIdx = n by omega, hscan, hpend, front_append hplain]
  cases front (bytes c.readBuf c.checkedIdx n) <;> simp [scanned, hk, Nat.add_assoc]

end HttpConn

end Http
