-- SUMMARY: Char buffers with checked accesses, the C string functions over them, and what each computes on a known NUL-terminated text.
import Mathlib.Algebra.Group.Nat.Defs
import Mathlib.Data.List.TakeWhile
import LinuxLearning.Common.Memory

/-!
# C strings in a bounded buffer

A `char` array is a total function `Mem` with its size passed to every access, so
that an access outside the array is a `Fault` of the computation and not a value.
The C string functions are the loops of the C library over these accesses: each
reads one byte at a time and stops where the library does.

The second half of the file says what the loops compute when the bytes at the
pointer are known: `bytes m s l.length = l` for a text `l` and a NUL after it.
-/

namespace CString

open Memory

/-- The contents of a `char` array. The size of the array is an argument of the
    accesses. -/
abbrev Mem := Nat → UInt8

/-- The bytes of a string literal, without its terminator. -/
def ascii (s : String) : List UInt8 :=
  s.toList.map fun c => c.toNat.toUInt8

def load (cap : Nat) (m : Mem) (i : Nat) : Except Fault UInt8 :=
  if i < cap then .ok (m i) else .error (.outOfBounds i)

def store (cap : Nat) (m : Mem) (i : Int) (b : UInt8) : Except Fault Mem :=
  if 0 ≤ i ∧ i < cap then .ok (Function.update m i.toNat b) else .error (.outOfBounds i)

-- ---------------------------------------------------------------------------
-- Character classes and integers
-- ---------------------------------------------------------------------------

/-- `tolower` of the C locale. -/
def tolower (b : UInt8) : UInt8 :=
  if 65 ≤ b ∧ b ≤ 90 then b + 32 else b

/-- `isspace` of the C locale. -/
def isspace (b : UInt8) : Bool :=
  b == 32 || (9 ≤ b && b ≤ 13)

def isdigit (b : UInt8) : Bool :=
  48 ≤ b && b ≤ 57

def intMax : Int := 2147483647
def intMin : Int := -2147483648

/-- Conversion to `int`: the low 32 bits, as a signed number. -/
def toInt32 (v : Int) : Int :=
  v.bmod (2 ^ 32)

theorem toInt32_ge (v : Int) : intMin ≤ toInt32 v := by
  have := Int.le_bmod (x := v) (m := 2 ^ 32) (by decide)
  simp only [toInt32, intMin]
  omega

theorem toInt32_le (v : Int) : toInt32 v ≤ intMax := by
  have := Int.bmod_le (x := v) (m := 2 ^ 32) (by decide)
  simp only [toInt32, intMax]
  omega

/-- `strtol` saturates at the ends of `long`. -/
def clampLong (v : Int) : Int :=
  max (-9223372036854775808) (min 9223372036854775807 v)

/-- Signed addition of two `int`s. -/
def addInt (a b : Int) : Except Fault Int :=
  if intMin ≤ a + b ∧ a + b ≤ intMax then .ok (a + b) else .error (.intOverflow (a + b))

-- ---------------------------------------------------------------------------
-- Scans
-- ---------------------------------------------------------------------------

/-- Advance over the bytes that satisfy `p`. The fuel is what is left of the
    array, so running out of it is reading past the end. -/
def scanFuel (p : UInt8 → Bool) (m : Mem) : Nat → Nat → Except Fault Nat
  | 0, i => .error (.outOfBounds i)
  | n + 1, i => if p (m i) then scanFuel p m n (i + 1) else .ok i

/-- The first index from `i` on whose byte does not satisfy `p`. -/
def scan (cap : Nat) (p : UInt8 → Bool) (m : Mem) (i : Nat) : Except Fault Nat :=
  scanFuel p m (cap - i) i

/-- `strpbrk`: the first byte of the string that is in `accept`, or null. -/
def strpbrk (cap : Nat) (m : Mem) (s : Nat) (accept : List UInt8) : Except Fault (Option Nat) := do
  let i ← scan cap (fun b => b != 0 && !accept.contains b) m s
  return if m i = 0 then none else some i

/-- `s + strspn(s, accept)`. -/
def strspn (cap : Nat) (m : Mem) (s : Nat) (accept : List UInt8) : Except Fault Nat :=
  scan cap (fun b => b != 0 && accept.contains b) m s

/-- `strchr` for a character that is not NUL. -/
def strchr (cap : Nat) (m : Mem) (s : Nat) (c : UInt8) : Except Fault (Option Nat) := do
  let i ← scan cap (fun b => b != 0 && b != c) m s
  return if m i = 0 then none else some i

/-- `strcasecmp(s, lit) == 0` for a literal `lit` without NUL bytes. -/
def strcasecmp (cap : Nat) (m : Mem) : Nat → List UInt8 → Except Fault Bool
  | s, [] => do
    let b ← load cap m s
    return b == 0
  | s, c :: cs => do
    let b ← load cap m s
    if tolower b = tolower c then strcasecmp cap m (s + 1) cs else return false

/-- `strncasecmp(s, lit, n) == 0`. The terminator of the literal is compared too
    when `n` reaches it. -/
def strncasecmp (cap : Nat) (m : Mem) : Nat → List UInt8 → Nat → Except Fault Bool
  | _, _, 0 => return true
  | s, [], _ + 1 => do
    let b ← load cap m s
    return b == 0
  | s, c :: cs, n + 1 => do
    let b ← load cap m s
    if tolower b = tolower c then strncasecmp cap m (s + 1) cs n else return false

/-- The `n` bytes from `s` on. -/
def bytes (m : Mem) (s n : Nat) : List UInt8 :=
  (List.range' s n).map m

/-- The string at `s`, up to its NUL. -/
def cstring (cap : Nat) (m : Mem) (s : Nat) : Except Fault (List UInt8) := do
  let e ← scan cap (fun b => b != 0) m s
  return bytes m s (e - s)

/-- Write the bytes `l` from `s` on. -/
def blit (m : Mem) (s : Nat) : List UInt8 → Mem
  | [] => m
  | b :: l => blit (Function.update m s b) (s + 1) l

/-- `strcat(s, src)` for a string `src` without NUL bytes: it and its terminator go over the
    NUL at the end of the string at `s`. -/
def strcat (cap : Nat) (m : Mem) (s : Nat) (src : List UInt8) : Except Fault Mem := do
  let e ← scan cap (fun b => b != 0) m s
  if e + src.length < cap then return blit m e (src ++ [0]) else throw (.outOfBounds cap)

/-- What `strncpy(_, src, n)` copies: the string at `src`, cut or padded with NUL
    to `n` bytes. -/
def strncpySrc (cap : Nat) (m : Mem) : Nat → Nat → Except Fault (List UInt8)
  | _, 0 => return []
  | src, n + 1 => do
    let b ← load cap m src
    if b = 0 then return List.replicate (n + 1) 0
    else return b :: (← strncpySrc cap m (src + 1) n)

/-- The value of a run of decimal digits. -/
def decimal (ds : List UInt8) : Int :=
  ds.foldl (fun v b => 10 * v + (b.toNat - 48 : Int)) 0

/-- `atol`: blanks, an optional sign, digits. -/
def atol (cap : Nat) (m : Mem) (s : Nat) : Except Fault Int := do
  let i ← scan cap isspace m s
  let b ← load cap m i
  let d := if b = 43 ∨ b = 45 then i + 1 else i
  let e ← scan cap isdigit m d
  let v := decimal (bytes m d (e - d))
  return clampLong (if b = 45 then -v else v)

-- ---------------------------------------------------------------------------
-- Known texts
-- ---------------------------------------------------------------------------

/-- The C string at `s` is `l`, and its terminator lies inside the array. -/
structure TextAt (cap : Nat) (m : Mem) (s : Nat) (l : List UInt8) : Prop where
  bound : s + l.length < cap
  get : ∀ (k : Nat) (h : k < l.length), m (s + k) = l[k]
  nulFree : 0 ∉ l
  stop : m (s + l.length) = 0

namespace TextAt

variable {cap : Nat} {m : Mem} {s : Nat} {l : List UInt8}

theorem head {b : UInt8} (h : TextAt cap m s (b :: l)) : m s = b :=
  h.get 0 (by simp)

theorem tail {b : UInt8} (h : TextAt cap m s (b :: l)) : TextAt cap m (s + 1) l where
  bound := by have := h.bound; simp at this; omega
  get k hk := by
    have := h.get (k + 1) (by simpa using hk)
    rwa [← Nat.add_assoc, Nat.add_right_comm] at this
  nulFree hmem := h.nulFree (List.mem_cons_of_mem _ hmem)
  stop := by
    have := h.stop
    rwa [List.length_cons, ← Nat.add_assoc, Nat.add_right_comm] at this

theorem cons {b : UInt8} (hb : b ≠ 0) (hm : m s = b) (h : TextAt cap m (s + 1) l) :
    TextAt cap m s (b :: l) where
  bound := by have := h.bound; simp; omega
  get k hk := by
    cases k with
    | zero => simpa using hm
    | succ k =>
      have := h.get k (by simpa using hk)
      rwa [Nat.add_right_comm] at this
  nulFree hmem := by
    rcases List.mem_cons.mp hmem with h0 | h0
    · exact hb h0.symm
    · exact h.nulFree h0
  stop := by
    have := h.stop
    rwa [Nat.add_right_comm] at this

theorem drop (h : TextAt cap m s l) {n : Nat} (hn : n ≤ l.length) :
    TextAt cap m (s + n) (l.drop n) := by
  induction n generalizing s l with
  | zero => simpa using h
  | succ n ih =>
    cases l with
    | nil => simp at hn
    | cons b l =>
      have := ih h.tail (by simpa using hn)
      rwa [Nat.add_assoc, Nat.add_comm 1 n] at this

/-- Where there is a NUL there is a text before it. -/
theorem exists_of_nul {e : Nat} (hs : s ≤ e) (he : e < cap) (h0 : m e = 0) :
    ∃ l, TextAt cap m s l ∧ s + l.length ≤ e := by
  obtain ⟨d, rfl⟩ := Nat.exists_eq_add_of_le hs
  induction d generalizing s with
  | zero => exact ⟨[], ⟨by simpa using he, by simp, by simp, by simpa using h0⟩, by simp⟩
  | succ d ih =>
    by_cases hm : m s = 0
    · exact ⟨[], ⟨by simp; omega, by simp, by simp, by simpa using hm⟩, by simp⟩
    · have hadd : s + (d + 1) = s + 1 + d := by omega
      obtain ⟨l, hl, hle⟩ := ih (s := s + 1) (by omega) (by omega) (by rwa [← hadd])
      exact ⟨m s :: l, cons hm rfl hl, by simp; omega⟩

/-- A text depends only on its own bytes and its terminator. -/
theorem congr {m' : Mem} (h : TextAt cap m s l)
    (hm : ∀ i, s ≤ i → i ≤ s + l.length → m' i = m i) : TextAt cap m' s l where
  bound := h.bound
  get k hk := by rw [hm _ (by omega) (by omega)]; exact h.get k hk
  nulFree := h.nulFree
  stop := by rw [hm _ (by omega) (by omega)]; exact h.stop

/-- Writing a NUL into a text cuts it there. -/
theorem cut (h : TextAt cap m s l) {k : Nat} (hk : k < l.length) :
    TextAt cap (Function.update m (s + k) 0) s (l.take k) where
  bound := by have := h.bound; simp; omega
  get j hj := by
    simp only [List.length_take] at hj
    rw [Function.update_of_ne (by omega), List.getElem_take]
    exact h.get j (by omega)
  nulFree hmem := h.nulFree (List.mem_of_mem_take hmem)
  stop := by
    rw [List.length_take, Nat.min_eq_left (by omega)]
    exact Function.update_self ..

theorem update_lt (h : TextAt cap m s l) {i : Nat} (hi : i < s) (b : UInt8) :
    TextAt cap (Function.update m i b) s l :=
  h.congr fun _ _ _ => Function.update_of_ne (by omega) ..

end TextAt

/-- Equality up to the case of the letters. -/
def caseEq (l r : List UInt8) : Bool :=
  l.map tolower == r.map tolower

/-- What `atol` reads from a text. -/
def atolText (l : List UInt8) : Int :=
  let r := l.dropWhile isspace
  let b := r.head?.getD 0
  let v := decimal ((if b = 43 ∨ b = 45 then r.tail else r).takeWhile isdigit)
  clampLong (if b = 45 then -v else v)

theorem tolower_eq_zero (b : UInt8) : tolower b = 0 ↔ b = 0 := by
  unfold tolower
  split
  · grind
  · rfl

theorem takeWhile_nulFree {l : List UInt8} (h : 0 ∉ l) (q : UInt8 → Bool) :
    l.takeWhile (fun b => b != 0 && q b) = l.takeWhile q := by
  induction l with
  | nil => rfl
  | cons b l ih =>
    have hb : b ≠ 0 := fun e => h (by simp [e])
    have hl : 0 ∉ l := fun e => h (List.mem_cons_of_mem _ e)
    simp [List.takeWhile_cons, hb, ih hl]

/-- A text without NUL bytes, read back from a buffer that was cleared before. -/
theorem takeWhile_padded {l : List UInt8} (h : ∀ b ∈ l, b ≠ 0) (n : Nat) :
    (l ++ List.replicate n 0).takeWhile (· ≠ 0) = l := by
  have hrest : (List.replicate n (0 : UInt8)).takeWhile (· ≠ 0) = [] := by
    cases n <;> simp [List.replicate_succ]
  rw [List.takeWhile_append_of_pos (by simpa using h), hrest, List.append_nil]

/-- `takeWhile` takes the whole list, or stops at a first byte outside `p`. -/
theorem takeWhile_split (p : UInt8 → Bool) (l : List UInt8) :
    (l.takeWhile p = l ∧ l.dropWhile p = []) ∨
      ∃ b r, l = l.takeWhile p ++ b :: r ∧ l.dropWhile p = b :: r ∧ p b = false := by
  induction l with
  | nil => exact .inl ⟨rfl, rfl⟩
  | cons b l ih =>
    cases hb : p b with
    | false => exact .inr ⟨b, l, by simp [hb], by simp [hb], hb⟩
    | true =>
      rcases ih with ⟨ht, hd⟩ | ⟨b', r, hl, hd, hp⟩
      · exact .inl ⟨by simp [hb, ht], by simp [hb, hd]⟩
      · refine .inr ⟨b', r, ?_, by simpa [hb] using hd, hp⟩
        rw [List.takeWhile_cons_of_pos hb, List.cons_append, ← hl]

section Specs

variable {cap : Nat} {m : Mem} {s : Nat} {l : List UInt8}

theorem load_text (h : TextAt cap m s l) : load cap m s = .ok (l.head?.getD 0) := by
  have hb := h.bound
  rw [load, if_pos (by omega)]
  cases l with
  | nil => simpa using h.stop
  | cons b l => simpa using h.head

theorem scanFuel_text {p : UInt8 → Bool} (h : TextAt cap m s l) (hp : p 0 = false) {n : Nat}
    (hn : l.length < n) : scanFuel p m n s = .ok (s + (l.takeWhile p).length) := by
  induction l generalizing s n with
  | nil =>
    obtain ⟨n, rfl⟩ := Nat.exists_eq_add_one_of_ne_zero (by omega : n ≠ 0)
    have hm : m s = 0 := by simpa using h.stop
    simp [scanFuel, hm, hp]
  | cons b l ih =>
    obtain ⟨n, rfl⟩ := Nat.exists_eq_add_one_of_ne_zero (by omega : n ≠ 0)
    rw [scanFuel, h.head]
    cases hb : p b with
    | false => simp [hb]
    | true =>
      rw [if_pos rfl, ih h.tail (by simp at hn; omega)]
      simp [hb]; omega

theorem scan_text {p : UInt8 → Bool} (h : TextAt cap m s l) (hp : p 0 = false) :
    scan cap p m s = .ok (s + (l.takeWhile p).length) :=
  scanFuel_text h hp (by have := h.bound; omega)

theorem TextAt.eq_zero_iff (h : TextAt cap m s l) {n : Nat} (hn : n ≤ l.length) :
    m (s + n) = 0 ↔ n = l.length := by
  constructor
  · intro h0
    by_contra hne
    have hlt : n < l.length := by omega
    exact h.nulFree (by rw [← h0, h.get n hlt]; exact List.getElem_mem hlt)
  · rintro rfl; exact h.stop

theorem strpbrk_text (h : TextAt cap m s l) (accept : List UInt8) :
    strpbrk cap m s accept = .ok (
      let n := (l.takeWhile fun b => !accept.contains b).length
      if n = l.length then none else some (s + n)) := by
  have hle := (List.takeWhile_prefix (l := l) fun b => !accept.contains b).length_le
  simp only [strpbrk, scan_text h (p := fun b => b != 0 && !accept.contains b) rfl,
    takeWhile_nulFree h.nulFree, bind, Except.bind, pure, Except.pure, h.eq_zero_iff hle]

theorem strspn_text (h : TextAt cap m s l) (accept : List UInt8) :
    strspn cap m s accept = .ok (s + (l.takeWhile fun b => accept.contains b).length) := by
  rw [strspn, scan_text h rfl, takeWhile_nulFree h.nulFree]

theorem strchr_text (h : TextAt cap m s l) (c : UInt8) :
    strchr cap m s c = .ok (
      let n := (l.takeWhile fun b => b != c).length
      if n = l.length then none else some (s + n)) := by
  have hle := (List.takeWhile_prefix (l := l) fun b => b != c).length_le
  simp only [strchr, scan_text h (p := fun b => b != 0 && b != c) rfl,
    takeWhile_nulFree h.nulFree, bind, Except.bind, pure, Except.pure, h.eq_zero_iff hle]

theorem TextAt.dropWhile (h : TextAt cap m s l) (p : UInt8 → Bool) :
    TextAt cap m (s + (l.takeWhile p).length) (l.dropWhile p) := by
  induction l generalizing s with
  | nil => simpa using h
  | cons b l ih =>
    cases hb : p b with
    | false => simpa [hb] using h
    | true =>
      have := ih h.tail
      simpa [hb, Nat.add_assoc, Nat.add_comm 1] using this

/-- `strpbrk` finds nothing, or cuts the text before the first byte of `accept`. -/
theorem strpbrk_cases (h : TextAt cap m s l) (accept : List UInt8) :
    (l.takeWhile (fun b => !accept.contains b) = l ∧ strpbrk cap m s accept = .ok none) ∨
      ∃ a b r, l = a ++ b :: r ∧ l.takeWhile (fun b => !accept.contains b) = a ∧
        accept.contains b ∧ strpbrk cap m s accept = .ok (some (s + a.length)) := by
  have hs := strpbrk_text h accept
  rcases takeWhile_split (fun b => !accept.contains b) l with ⟨ht, -⟩ | ⟨b, r, hl, -, hb⟩
  · exact .inl ⟨ht, by simp only [ht, if_true] at hs; exact hs⟩
  · generalize l.takeWhile (fun b => !accept.contains b) = a at *
    subst hl
    exact .inr ⟨a, b, r, rfl, rfl, by simpa using hb, by simpa using hs⟩

/-- `strchr` finds nothing, or points to the first `c`. -/
theorem strchr_cases (h : TextAt cap m s l) (c : UInt8) :
    (l.dropWhile (fun b => b != c) = [] ∧ strchr cap m s c = .ok none) ∨
      ∃ n r, l.dropWhile (fun b => b != c) = c :: r ∧ strchr cap m s c = .ok (some (s + n)) ∧
        TextAt cap m (s + n) (c :: r) ∧ n + (c :: r).length = l.length := by
  have hs := strchr_text h c
  rcases takeWhile_split (fun b => b != c) l with ⟨ht, hd⟩ | ⟨b, r, hl, hd, hb⟩
  · exact .inl ⟨hd, by simpa [ht] using hs⟩
  · obtain rfl : b = c := by simpa using hb
    have hlen := congrArg List.length hl
    rw [List.length_append] at hlen
    refine .inr ⟨_, r, hd, ?_, hd ▸ h.dropWhile _, hlen.symm⟩
    have hne : (l.takeWhile fun x => x != b).length ≠ l.length := by
      simp only [List.length_cons] at hlen
      omega
    simpa [hne] using hs

theorem strcasecmp_text (h : TextAt cap m s l) {lit : List UInt8} (hlit : 0 ∉ lit) :
    strcasecmp cap m s lit = .ok (caseEq l lit) := by
  induction lit generalizing s l with
  | nil =>
    simp only [strcasecmp, load_text h, bind, Except.bind, pure, Except.pure]
    cases l with
    | nil => rfl
    | cons b l =>
      have hb : b ≠ 0 := fun e => h.nulFree (by simp [e])
      simp [caseEq, hb]
  | cons c lit ih =>
    have hc : c ≠ 0 := fun e => hlit (by simp [e])
    simp only [strcasecmp, load_text h, bind, Except.bind, pure, Except.pure]
    cases l with
    | nil =>
      have h0 : ¬ tolower 0 = tolower c := fun e => hc ((tolower_eq_zero c).mp e.symm)
      simp [caseEq, h0]
    | cons b l =>
      by_cases hbc : tolower b = tolower c
      · simp [hbc, ih h.tail fun e => hlit (List.mem_cons_of_mem _ e), caseEq]
      · simp [hbc, caseEq]

/-- `strncasecmp` within the literal compares prefixes. -/
theorem strncasecmp_text {lit : List UInt8} (h : TextAt cap m s l) (hlit : 0 ∉ lit) {n : Nat}
    (hn : n ≤ lit.length) :
    strncasecmp cap m s lit n = .ok (caseEq (l.take n) (lit.take n)) := by
  induction lit generalizing s l n with
  | nil =>
    obtain rfl : n = 0 := by simpa using hn
    simp [strncasecmp, caseEq, pure, Except.pure]
  | cons c lit ih =>
    cases n with
    | zero => simp [strncasecmp, caseEq, pure, Except.pure]
    | succ n =>
    have hc : c ≠ 0 := fun e => hlit (by simp [e])
    simp only [strncasecmp, load_text h, bind, Except.bind, pure, Except.pure]
    cases l with
    | nil =>
      have h0 : ¬ tolower 0 = tolower c := fun e => hc ((tolower_eq_zero c).mp e.symm)
      simp [caseEq, h0]
    | cons b l =>
      by_cases hbc : tolower b = tolower c
      · simp [hbc, ih h.tail (fun e => hlit (List.mem_cons_of_mem _ e)) (by simpa using hn), caseEq]
      · simp [hbc, caseEq]

/-- One character past the literal, `strncasecmp` compares whole strings. -/
theorem strncasecmp_whole {lit : List UInt8} (h : TextAt cap m s l) (hlit : 0 ∉ lit) :
    strncasecmp cap m s lit (lit.length + 1) = .ok (caseEq l lit) := by
  rw [← strcasecmp_text h hlit]
  clear h
  induction lit generalizing s with
  | nil => rfl
  | cons c lit ih =>
    simp only [strncasecmp, strcasecmp, List.length_cons]
    rw [ih fun e => hlit (List.mem_cons_of_mem _ e)]

@[simp] theorem bytes_length (m : Mem) (s n : Nat) : (bytes m s n).length = n := by
  simp [bytes]

theorem bytes_add (m : Mem) (s n k : Nat) : bytes m s (n + k) = bytes m s n ++ bytes m (s + n) k := by
  simp [bytes, ← List.range'_append_1]

theorem bytes_congr {m' : Mem} {n : Nat} (h : ∀ i, s ≤ i → i < s + n → m' i = m i) :
    bytes m' s n = bytes m s n := by
  apply List.map_congr_left
  intro i hi
  simp only [List.mem_range'_1] at hi
  exact h i hi.1 hi.2

theorem bytes_drop {n : Nat} {l r : List UInt8} (h : bytes m s n = l ++ r) :
    bytes m (s + l.length) (n - l.length) = r := by
  have hlen := congrArg List.length h
  rw [bytes_length, List.length_append] at hlen
  rw [show n = l.length + r.length by omega, bytes_add] at h
  rw [show n - l.length = r.length by omega]
  exact (List.append_inj h (by simp)).2

/-- A known prefix of the bytes at `s`, byte by byte. -/
theorem get_of_bytes {n : Nat} {l r : List UInt8} (h : bytes m s n = l ++ r) (k : Nat)
    (hk : k < l.length) : m (s + k) = l[k] := by
  have hlen := congrArg List.length h
  rw [bytes_length, List.length_append] at hlen
  have hget : (bytes m s n)[k]? = some l[k] := by
    rw [h, List.getElem?_append_left hk, List.getElem?_eq_getElem hk]
  simpa [bytes, show k < n by omega] using hget

theorem bytes_eq {l : List UInt8} (h : ∀ (k : Nat) (hk : k < l.length), m (s + k) = l[k]) :
    bytes m s l.length = l := by
  apply List.ext_getElem
  · simp [bytes]
  · intro k hk hk'
    simp [bytes, h k hk']

theorem bytes_text (h : TextAt cap m s l) : bytes m s l.length = l :=
  bytes_eq h.get

/-- The C string in known bytes that a NUL follows. -/
theorem TextAt.of_bytes {n : Nat} (h : bytes m s n = l) (hstop : m (s + n) = 0) (hbound : s + n < cap) :
    TextAt cap m s (l.takeWhile (· != 0)) := by
  obtain rfl : n = l.length := by rw [← h, bytes_length]
  induction l generalizing s with
  | nil => exact ⟨hbound, nofun, nofun, hstop⟩
  | cons b l ih =>
    have hb : m s = b := get_of_bytes (l := b :: l) (by rw [h, List.append_nil]) 0 (by simp)
    have hrest : bytes m (s + 1) l.length = l := bytes_drop (l := [b]) (by simpa using h)
    rw [List.length_cons] at hstop hbound
    by_cases h0 : b = 0
    · subst h0
      exact ⟨by simp; omega, nofun, nofun, hb⟩
    · rw [List.takeWhile_cons_of_pos (by simpa using h0)]
      exact .cons h0 hb (ih hrest (by rwa [Nat.add_right_comm]) (by omega))

theorem scan_end (h : TextAt cap m s l) : scan cap (fun b => b != 0) m s = .ok (s + l.length) := by
  have hp : l.takeWhile (fun b => b != 0) = l := by
    rw [List.takeWhile_eq_self_iff]
    intro b hb
    have hne : b ≠ 0 := fun e => h.nulFree (e ▸ hb)
    simpa using hne
  rw [scan_text h rfl, hp]

theorem cstring_text (h : TextAt cap m s l) : cstring cap m s = .ok l := by
  rw [cstring, scan_end h, ok_bind, Nat.add_sub_cancel_left, bytes_text h]
  rfl

theorem strncpySrc_text (h : TextAt cap m s l) (n : Nat) :
    strncpySrc cap m s n = .ok (l.take n ++ List.replicate (n - l.length) 0) := by
  induction n generalizing s l with
  | zero => simp [strncpySrc, pure, Except.pure]
  | succ n ih =>
    simp only [strncpySrc, load_text h, bind, Except.bind, pure, Except.pure]
    cases l with
    | nil => simp
    | cons b l =>
      have hb : b ≠ 0 := fun e => h.nulFree (by simp [e])
      simp [hb, ih h.tail]

theorem TextAt.takeWhile_bytes (h : TextAt cap m s l) (p : UInt8 → Bool) :
    bytes m s (l.takeWhile p).length = l.takeWhile p := by
  apply bytes_eq
  intro k hk
  have hpre := List.takeWhile_prefix (l := l) p
  rw [h.get k (by have := hpre.length_le; omega)]
  exact (hpre.getElem hk).symm

theorem atol_text (h : TextAt cap m s l) : atol cap m s = .ok (atolText l) := by
  have hr := h.dropWhile isspace
  simp only [atol, scan_text h (p := isspace) rfl, load_text hr, bind, Except.bind, pure,
    Except.pure, atolText]
  generalize hs : s + (l.takeWhile isspace).length = i at hr
  generalize l.dropWhile isspace = r at hr
  by_cases hb : r.head?.getD 0 = 43 ∨ r.head?.getD 0 = 45
  · have htail : TextAt cap m (i + 1) r.tail := by
      cases r with
      | nil => simp at hb
      | cons b r => exact hr.tail
    simp [hb, scan_text htail (p := isdigit) rfl, htail.takeWhile_bytes]
  · simp [hb, scan_text hr (p := isdigit) rfl, hr.takeWhile_bytes]

theorem blit_apply (m : Mem) (s : Nat) (l : List UInt8) (i : Nat) :
    blit m s l i = if h : s ≤ i ∧ i < s + l.length then l[i - s] else m i := by
  induction l generalizing m s with
  | nil => rw [blit, dif_neg (by rw [List.length_nil]; omega)]
  | cons b l ih =>
    rw [blit, ih]
    by_cases hi : i = s
    · subst hi
      rw [dif_neg (by omega), dif_pos (by simp)]
      simp
    · by_cases h : s ≤ i ∧ i < s + (b :: l).length
      · have h' : s + 1 ≤ i ∧ i < s + 1 + l.length := by simp at h; omega
        rw [dif_pos h', dif_pos h]
        simp [show i - s = (i - (s + 1)) + 1 by omega]
      · have h' : ¬ (s + 1 ≤ i ∧ i < s + 1 + l.length) := by simp at h; omega
        rw [dif_neg h', dif_neg h, Function.update_of_ne hi]

theorem blit_of_lt (m : Mem) {s i : Nat} (l : List UInt8) (hi : i < s) : blit m s l i = m i := by
  rw [blit_apply, dif_neg (by omega)]

theorem blit_update (m : Mem) {s i : Nat} (b : UInt8) (l : List UInt8) (hi : i < s) :
    blit (Function.update m i b) s l = Function.update (blit m s l) i b := by
  funext j
  by_cases hj : j = i
  · subst hj
    rw [blit_of_lt _ _ hi, Function.update_self, Function.update_self]
  · simp only [blit_apply, Function.update_of_ne hj]

theorem blit_append (m : Mem) (s : Nat) (l r : List UInt8) :
    blit m s (l ++ r) = blit (blit m s l) (s + l.length) r := by
  induction l generalizing m s with
  | nil => rfl
  | cons b l ih =>
    rw [List.cons_append, blit, ih, blit, List.length_cons, Nat.add_assoc, Nat.add_comm 1]

theorem bytes_blit (m : Mem) (s : Nat) (l : List UInt8) : bytes (blit m s l) s l.length = l := by
  apply bytes_eq
  intro k hk
  simp [blit_apply, hk]

/-- A text grows by what is written over its terminator. -/
theorem TextAt.append (h : TextAt cap m s l) {src : List UInt8} (hsrc : 0 ∉ src)
    (hfit : s + (l ++ src).length < cap) : TextAt cap (blit m (s + l.length) (src ++ [0])) s (l ++ src) where
  bound := hfit
  get k hk := by
    rw [List.length_append] at hk
    rw [blit_apply]
    by_cases hkl : k < l.length
    · rw [dif_neg (by omega), List.getElem_append_left hkl, h.get k hkl]
    · have hin : s + l.length ≤ s + k ∧ s + k < s + l.length + (src ++ [0]).length := by
        rw [List.length_append, List.length_singleton]
        omega
      have hoff : s + k - (s + l.length) = k - l.length := by omega
      have hsrc : k - l.length < src.length := by omega
      rw [dif_pos hin]
      simp only [hoff]
      rw [List.getElem_append_left hsrc]
      exact (List.getElem_append_right (by omega)).symm
  nulFree hmem := by
    rcases List.mem_append.mp hmem with h0 | h0
    · exact h.nulFree h0
    · exact hsrc h0
  stop := by
    rw [List.length_append, ← Nat.add_assoc, blit_apply, dif_pos (by simp)]
    simp

theorem strcat_text (h : TextAt cap m s l) {src : List UInt8} (hsrc : 0 ∉ src)
    (hfit : s + (l ++ src).length < cap) :
    ∃ m', strcat cap m s src = .ok m' ∧ TextAt cap m' s (l ++ src) := by
  refine ⟨_, ?_, h.append hsrc hfit⟩
  rw [List.length_append, ← Nat.add_assoc] at hfit
  rw [strcat, scan_end h, ok_bind, if_pos hfit]
  rfl

end Specs

end CString
