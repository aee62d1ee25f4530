-- SUMMARY: What parse_request_line and parse_headers compute on a line whose bytes are known.
import LinuxLearning.HttpConn.Parse

/-!
# Lines as texts

The parser works on pointers into the read buffer. This module reads its results
off the bytes of a line: `requestTarget` is the URL that an accepted request line
leaves in `m_url`, and the frame lemmas say which members and which bytes of the
buffer a call can change.
-/

namespace Http

open Memory CString

-- ---------------------------------------------------------------------------
-- Buffers and their zeroed bytes
-- ---------------------------------------------------------------------------

/-- `m'` is `m` but for bytes of `[s, e)` that were set to NUL. -/
def ZeroedIn (s e : Nat) (m m' : Mem) : Prop :=
  ∀ i, m' i = m i ∨ (s ≤ i ∧ i < e ∧ m' i = 0)

namespace ZeroedIn

variable {s e : Nat} {m m' m'' : Mem}

theorem refl (s e : Nat) (m : Mem) : ZeroedIn s e m m :=
  fun _ => .inl rfl

theorem trans (h : ZeroedIn s e m m') (h' : ZeroedIn s e m' m'') : ZeroedIn s e m m'' := by
  intro i
  rcases h' i with h2 | h2
  · rw [h2]; exact h i
  · exact .inr h2

theorem update {i : Nat} (hs : s ≤ i) (he : i < e) : ZeroedIn s e m (Function.update m i 0) := by
  intro j
  by_cases hj : j = i
  · subst hj; exact .inr ⟨hs, he, Function.update_self ..⟩
  · exact .inl (Function.update_of_ne hj ..)

theorem mono {s' e' : Nat} (h : ZeroedIn s e m m') (hs : s' ≤ s) (he : e ≤ e') :
    ZeroedIn s' e' m m' := by
  intro i
  rcases h i with h1 | ⟨h1, h2, h3⟩
  · exact .inl h1
  · exact .inr ⟨by omega, by omega, h3⟩

theorem eq_of_not_mem (h : ZeroedIn s e m m') {i : Nat} (hi : i < s ∨ e ≤ i) : m' i = m i := by
  rcases h i with h1 | ⟨h1, h2, _⟩
  · exact h1
  · omega

theorem zero (h : ZeroedIn s e m m') {i : Nat} (hi : m i = 0) : m' i = 0 := by
  rcases h i with h1 | ⟨_, _, h1⟩
  · rw [h1, hi]
  · exact h1

theorem ne_cr (h : ZeroedIn s e m m') {i : Nat} (hi : m i ≠ cr) : m' i ≠ cr := by
  rcases h i with h1 | ⟨_, _, h1⟩
  · rwa [h1]
  · rw [h1]; decide

end ZeroedIn

/-- The C string that a line of raw bytes begins with. -/
def cstr (l : List UInt8) : List UInt8 :=
  l.takeWhile fun b => b != 0

/-- A line in the read buffer after `parse_line`: its bytes and two NULs. -/
structure LineAt (m : Mem) (s : Nat) (l : List UInt8) : Prop where
  bound : s + l.length + 1 < readBufferSize
  get : ∀ (k : Nat) (h : k < l.length), m (s + k) = l[k]
  stop₀ : m (s + l.length) = 0
  stop₁ : m (s + l.length + 1) = 0

theorem LineAt.congr {m m' : Mem} {s : Nat} {l : List UInt8} (h : LineAt m s l)
    (hm : ∀ i, i ≤ s + l.length + 1 → m' i = m i) : LineAt m' s l where
  bound := h.bound
  get k hk := by rw [hm _ (by omega)]; exact h.get k hk
  stop₀ := by rw [hm _ (by omega)]; exact h.stop₀
  stop₁ := by rw [hm _ (by omega)]; exact h.stop₁

/-- One may start reading anywhere in a line, its first terminator included. -/
theorem LineAt.textFrom {m : Mem} {s : Nat} {l : List UInt8} (h : LineAt m s l) {k : Nat}
    (hk : k ≤ l.length + 1) : TextAt readBufferSize m (s + k) (cstr (l.drop k)) := by
  have hb := h.bound
  by_cases hlt : k ≤ l.length
  · have hbytes : bytes m (s + k) (l.length - k) = l.drop k := by
      rw [← List.length_drop]
      refine bytes_eq fun j hj => ?_
      rw [List.length_drop] at hj
      rw [Nat.add_assoc, h.get (k + j) (by omega), List.getElem_drop]
    apply TextAt.of_bytes hbytes
    · rw [show s + k + (l.length - k) = s + l.length by omega]
      exact h.stop₀
    · omega
  · obtain rfl : k = l.length + 1 := by omega
    have hd : l.drop (l.length + 1) = [] := List.drop_eq_nil_of_le (by omega)
    rw [hd]
    exact ⟨by simp [cstr]; omega, by simp [cstr], by simp [cstr], by simpa [cstr, Nat.add_assoc] using h.stop₁⟩

theorem LineAt.text {m : Mem} {s : Nat} {l : List UInt8} (h : LineAt m s l) :
    TextAt readBufferSize m s (cstr l) := by
  simpa using h.textFrom (Nat.zero_le _)

-- ---------------------------------------------------------------------------
-- The request line
-- ---------------------------------------------------------------------------

def isBlank (b : UInt8) : Bool := blanks.contains b

/-- The URL without its scheme and authority. -/
def targetPath (t : List UInt8) : List UInt8 :=
  if caseEq (t.take 7) (ascii "http://") then (t.drop 7).dropWhile fun b => b != 47 else t

/-- The URL at the start of `l`, if the version after it and the URL itself are
    acceptable. -/
def urlTarget (l : List UInt8) : Option (List UInt8) :=
  let url := l.takeWhile fun b => !isBlank b
  let version := (l.drop (url.length + 1)).dropWhile isBlank
  if url.length < l.length ∧ caseEq version (ascii "HTTP/1.1") ∧
      (targetPath url).head? = some 47 then
    some (targetPath url)
  else none

/-- The URL in a request line that the server accepts. -/
def requestTarget (l : List UInt8) : Option (List UInt8) :=
  let meth := l.takeWhile fun b => !isBlank b
  if meth.length < l.length ∧ caseEq meth (ascii "GET") then
    urlTarget ((l.drop (meth.length + 1)).dropWhile isBlank)
  else none

theorem strspn_blanks {cap s : Nat} {m : Mem} {l : List UInt8} (h : TextAt cap m s l) :
    strspn cap m s blanks = .ok (s + (l.takeWhile isBlank).length) :=
  strspn_text h blanks

theorem strpbrk_blanks {cap s : Nat} {m : Mem} {l : List UInt8} (h : TextAt cap m s l) :
    (l.takeWhile (fun b => !isBlank b) = l ∧ strpbrk cap m s blanks = .ok none) ∨
      ∃ a b r, l = a ++ b :: r ∧ l.takeWhile (fun b => !isBlank b) = a ∧
        isBlank b ∧ strpbrk cap m s blanks = .ok (some (s + a.length)) :=
  strpbrk_cases h blanks

namespace HttpConn

variable {c : HttpConn} {fs : FileSystem}

theorem loadBuf_text {s : Nat} {l : List UInt8} (h : TextAt readBufferSize c.readBuf s l) :
    c.loadBuf s = .ok (l.head?.getD 0) :=
  load_text h

theorem storeBuf_nat {i : Nat} (hi : i < readBufferSize) (b : UInt8) :
    c.storeBuf i b = .ok { c with readBuf := Function.update c.readBuf i b } := by
  have h : (0 : Int) ≤ i ∧ (i : Int) < readBufferSize := by omega
  simp [storeBuf, store, hi, bind, Except.bind, pure, Except.pure]

/-- The end of `parse_request_line` on the URL `t` at `u`. -/
def urlStep (c : HttpConn) (u : Nat) (t : List UInt8) : HttpConn × HttpCode :=
  if (targetPath t).head? = some 47 then
    ({ c with url := some (u + (t.length - (targetPath t).length)), checkState := .header },
      .noRequest)
  else
    ({ c with url := if caseEq (t.take 7) (ascii "http://") then none else some u }, .badRequest)

/-- The middle of `parse_request_line` on the URL and the version `l` at `u`. -/
def splitStep (c : HttpConn) (u : Nat) (l : List UInt8) : HttpConn × HttpCode :=
  let url := l.takeWhile fun b => !isBlank b
  let rest := l.drop (url.length + 1)
  if url.length < l.length then
    let c := { c with
      readBuf := Function.update c.readBuf (u + url.length) 0
      url := some u
      version := some (u + url.length + 1 + (rest.takeWhile isBlank).length) }
    if caseEq (rest.dropWhile isBlank) (ascii "HTTP/1.1") then urlStep c u url
    else (c, .badRequest)
  else ({ c with url := some u, version := none }, .badRequest)

/-- `parse_request_line` on the C string `l` at `s`. -/
def requestLineStep (c : HttpConn) (s : Nat) (l : List UInt8) : HttpConn × HttpCode :=
  let meth := l.takeWhile fun b => !isBlank b
  let rest := l.drop (meth.length + 1)
  if meth.length < l.length then
    let u := s + meth.length + 1
    let c := { c with readBuf := Function.update c.readBuf (s + meth.length) 0, url := some u }
    if caseEq meth (ascii "GET") then
      splitStep { c with method := .get } (u + (rest.takeWhile isBlank).length)
        (rest.dropWhile isBlank)
    else (c, .badRequest)
  else ({ c with url := none }, .badRequest)

/-- The path of a URL is its end. -/
theorem targetPath_suffix (t : List UInt8) : targetPath t <:+ t := by
  unfold targetPath
  split
  · exact (List.dropWhile_suffix _).trans (List.drop_suffix _ _)
  · exact List.suffix_refl t

theorem checkUrl_line {u : Nat} {t : List UInt8} (h : TextAt readBufferSize c.readBuf u t) :
    c.checkUrl u = .ok (urlStep c u t) := by
  have hcmp : strncasecmp readBufferSize c.readBuf u (ascii "http://") 7 =
      .ok (caseEq (t.take 7) (ascii "http://")) :=
    strncasecmp_text h (by decide) (by decide)
  by_cases hs : caseEq (t.take 7) (ascii "http://")
  · have hlen : 7 ≤ t.length := by
      have := congrArg List.length (eq_of_beq hs)
      simp [ascii] at this
      omega
    have hp : targetPath t = (t.drop 7).dropWhile fun b => b != 47 := by simp [targetPath, hs]
    rcases strchr_cases (h.drop hlen) 47 with ⟨hd, hchr⟩ | ⟨n, r, hd, hchr, hr, hn⟩
    · simp [checkUrl, urlStep, hcmp, hs, hchr, hp, hd, bind, Except.bind, pure, Except.pure]
    · rw [List.length_drop] at hn
      have hpos : u + (t.length - (targetPath t).length) = u + 7 + n := by
        rw [hp, hd]
        omega
      have hload := loadBuf_text (c := { c with url := some (u + 7 + n) }) hr
      rw [urlStep, if_pos (by rw [hp, hd]; rfl), hpos]
      simp [checkUrl, hcmp, hs, hchr, hload, bind, Except.bind, pure, Except.pure]
  · have hp : targetPath t = t := by simp [targetPath, hs]
    have hload := loadBuf_text (c := { c with url := some u }) h
    simp only [checkUrl, urlStep, hcmp, hs, hload, hp, bind, Except.bind, pure, Except.pure]
    cases t with
    | nil => simp
    | cons b t => by_cases hb : b = 47 <;> simp [hb]

theorem splitUrl_line {u : Nat} {l : List UInt8} (h : TextAt readBufferSize c.readBuf u l) :
    c.splitUrl u = .ok (splitStep c (u + (l.takeWhile isBlank).length) (l.dropWhile isBlank)) := by
  have hrest := h.dropWhile isBlank
  simp only [splitUrl, strspn_blanks h, ok_bind]
  generalize u + (l.takeWhile isBlank).length = u' at *
  generalize l.dropWhile isBlank = rest at *
  rcases strpbrk_blanks hrest with ⟨ht, hbrk⟩ | ⟨url, b, r, rfl, ht, -, hbrk⟩
  · simp [hbrk, splitStep, ht, pure_eq_ok]
  · -- the blank after the URL is overwritten, which ends the URL and leaves the version alone
    have hstore := storeBuf_nat (c := { c with url := some u' }) (i := u' + url.length)
      (by have := hrest.bound; simp at this; omega) 0
    have hurl := hrest.cut (k := url.length) (by simp)
    have hver := (hrest.drop (n := url.length + 1) (by simp)).update_lt
      (i := u' + url.length) (by omega) 0
    have hdrop : (url ++ b :: r).drop (url.length + 1) = r := by simp
    rw [List.take_left] at hurl
    rw [hdrop, ← Nat.add_assoc] at hver
    have hcmp := strcasecmp_text (hver.dropWhile isBlank) (show 0 ∉ ascii "HTTP/1.1" by decide)
    have hlt : url.length < (url ++ b :: r).length := by simp
    simp only [splitStep, ht, hdrop, hlt, if_true, hbrk, ok_bind, hstore, strspn_blanks hver, hcmp]
    split
    · exact checkUrl_line hurl
    · rfl

theorem parseRequestLine_line {s : Nat} {l : List UInt8} (h : TextAt readBufferSize c.readBuf s l) :
    c.parseRequestLine s = .ok (requestLineStep c s l) := by
  rcases strpbrk_blanks h with ⟨ht, hbrk⟩ | ⟨meth, b, r, rfl, ht, -, hbrk⟩
  · simp [parseRequestLine, hbrk, requestLineStep, ht]
  · have hstore := storeBuf_nat (c := c) (i := s + meth.length)
      (by have := h.bound; simp at this; omega) 0
    have hmeth := h.cut (k := meth.length) (by simp)
    have hrest := (h.drop (n := meth.length + 1) (by simp)).update_lt
      (i := s + meth.length) (by omega) 0
    have hdrop : (meth ++ b :: r).drop (meth.length + 1) = r := by simp
    rw [List.take_left] at hmeth
    rw [hdrop, ← Nat.add_assoc] at hrest
    have hcmp := strcasecmp_text hmeth (show 0 ∉ ascii "GET" by decide)
    have hlt : meth.length < (meth ++ b :: r).length := by simp
    simp only [parseRequestLine, requestLineStep, ht, hdrop, hlt, if_true, hbrk, ok_bind, hstore, hcmp]
    split
    · exact splitUrl_line hrest
    · rfl

/-- What `parse_request_line` may change: the buffer inside the line, the two
    pointers, the method and the state. -/
structure RequestLineStep (c c' : HttpConn) (s e : Nat) (target : Option (List UInt8)) : Prop where
  same : c' = { c with
    readBuf := c'.readBuf
    url := c'.url
    version := c'.version
    method := c'.method
    checkState := c'.checkState }
  zeroed : ZeroedIn s e c.readBuf c'.readBuf
  reject : target = none → c'.checkState = c.checkState
  accept : ∀ p, target = some p → c'.checkState = .header ∧
    ∃ u, c'.url = some u ∧ s ≤ u ∧ u + p.length < e ∧ TextAt readBufferSize c'.readBuf u p

theorem urlStep_text {u e : Nat} {t : List UInt8} (h : TextAt readBufferSize c.readBuf u t)
    (he : u + t.length < e) {target : Option (List UInt8)}
    (htar : target = if (targetPath t).head? = some 47 then some (targetPath t) else none) :
    (urlStep c u t).2 = (if target.isSome then .noRequest else .badRequest) ∧
      RequestLineStep c (urlStep c u t).1 u e target := by
  subst htar
  have hle := (targetPath_suffix t).length_le
  by_cases hp : (targetPath t).head? = some 47
  · simp only [urlStep, if_pos hp]
    refine ⟨rfl, rfl, ZeroedIn.refl _ _ c.readBuf, nofun, ?_⟩
    rintro p ⟨⟩
    have htext := h.drop (n := t.length - (targetPath t).length) (by omega)
    rw [← List.suffix_iff_eq_drop.mp (targetPath_suffix t)] at htext
    exact ⟨rfl, _, rfl, by omega, by omega, htext⟩
  · simp only [urlStep, if_neg hp]
    exact ⟨rfl, rfl, ZeroedIn.refl _ _ c.readBuf, fun _ => rfl, nofun⟩

theorem splitStep_text {u : Nat} {l : List UInt8} (h : TextAt readBufferSize c.readBuf u l) :
    (splitStep c u l).2 = (if (urlTarget l).isSome then .noRequest else .badRequest) ∧
      RequestLineStep c (splitStep c u l).1 u (u + l.length) (urlTarget l) := by
  rcases strpbrk_blanks h with ⟨ht, -⟩ | ⟨url, b, r, rfl, ht, -, -⟩
  · simp only [splitStep, urlTarget, ht, Nat.lt_irrefl, false_and, if_false]
    exact ⟨rfl, rfl, ZeroedIn.refl _ _ c.readBuf, fun _ => rfl, nofun⟩
  · have hz : ZeroedIn u (u + (url ++ b :: r).length) c.readBuf
        (Function.update c.readBuf (u + url.length) 0) :=
      .update (by omega) (by simp)
    have hurl := h.cut (k := url.length) (by simp)
    have hdrop : (url ++ b :: r).drop (url.length + 1) = r := by simp
    have hlt : url.length < (url ++ b :: r).length := by simp
    rw [List.take_left] at hurl
    simp only [splitStep, urlTarget, ht, hdrop, hlt, true_and, if_true]
    generalize u + url.length + 1 + (r.takeWhile isBlank).length = v
    cases hv : caseEq (r.dropWhile isBlank) (ascii "HTTP/1.1") with
    | false => exact ⟨rfl, rfl, hz, fun _ => rfl, nofun⟩
    | true =>
      obtain ⟨hcode, hstep⟩ := urlStep_text
        (c := { c with
          readBuf := Function.update c.readBuf (u + url.length) 0
          url := some u
          version := some v })
        hurl (e := u + (url ++ b :: r).length) (by simp) rfl
      simp only [true_and, if_true]
      refine ⟨hcode, ?_, hz.trans hstep.zeroed, hstep.reject, hstep.accept⟩
      rw [hstep.same]

theorem requestLineStep_text {s : Nat} {l : List UInt8} (h : TextAt readBufferSize c.readBuf s l) :
    (requestLineStep c s l).2 = (if (requestTarget l).isSome then .noRequest else .badRequest) ∧
      RequestLineStep c (requestLineStep c s l).1 s (s + l.length) (requestTarget l) := by
  rcases strpbrk_blanks h with ⟨ht, -⟩ | ⟨meth, b, r, rfl, ht, -, -⟩
  · simp only [requestLineStep, requestTarget, ht, Nat.lt_irrefl, false_and, if_false]
    exact ⟨rfl, rfl, ZeroedIn.refl _ _ c.readBuf, fun _ => rfl, nofun⟩
  · have hz : ZeroedIn s (s + (meth ++ b :: r).length) c.readBuf
        (Function.update c.readBuf (s + meth.length) 0) :=
      .update (by omega) (by simp)
    have hrest := (h.drop (n := meth.length + 1) (by simp)).update_lt
      (i := s + meth.length) (by omega) 0
    have hdrop : (meth ++ b :: r).drop (meth.length + 1) = r := by simp
    have hlt : meth.length < (meth ++ b :: r).length := by simp
    rw [hdrop, ← Nat.add_assoc] at hrest
    simp only [requestLineStep, requestTarget, ht, hdrop, hlt, true_and, if_true]
    cases hg : caseEq meth (ascii "GET") with
    | false => exact ⟨rfl, rfl, hz, fun _ => rfl, nofun⟩
    | true =>
      have hlen := congrArg List.length (List.takeWhile_append_dropWhile (p := isBlank) (l := r))
      rw [List.length_append] at hlen
      obtain ⟨hcode, hstep⟩ := splitStep_text
        (c := { c with
          readBuf := Function.update c.readBuf (s + meth.length) 0
          url := some (s + meth.length + 1)
          method := .get })
        (hrest.dropWhile isBlank)
      simp only [if_true]
      refine ⟨hcode, ?_, ?_, hstep.reject, ?_⟩
      · rw [hstep.same]
      · exact hz.trans (hstep.zeroed.mono (by omega) (by simp; omega))
      · intro p hp
        obtain ⟨hst, w, hw, hle, hend, htext⟩ := hstep.accept p hp
        exact ⟨hst, w, hw, by omega, by simp; omega, htext⟩

-- ---------------------------------------------------------------------------
-- Header lines
-- ---------------------------------------------------------------------------

/-- `parse_headers` on the raw line `l` at `s`. Only an exact `Content-Length`
    string gets to its branch, and its value is then read behind the terminator. -/
def headerStep (c : HttpConn) (s : Nat) (l : List UInt8) : HttpConn × HttpCode :=
  if cstr l = [] then
    if c.contentLength ≠ 0 then ({ c with checkState := .content }, .noRequest)
    else (c, .getRequest)
  else if caseEq ((cstr l).take 11) (ascii "Connection:") then
    if caseEq (((cstr l).drop 11).dropWhile isBlank) (ascii "keep-alive") then
      ({ c with linger := true }, .noRequest)
    else (c, .noRequest)
  else if caseEq (cstr l) (ascii "Content-Length") then
    ({ c with contentLength := toInt32 (atolText ((cstr (l.drop 15)).dropWhile isBlank)) },
      .noRequest)
  else if caseEq ((cstr l).take 5) (ascii "Host:") then
    ({ c with host := some (s + 5 + (((cstr l).drop 5).takeWhile isBlank).length) }, .noRequest)
  else (c, .noRequest)

theorem length_le_of_caseEq_take {l lit : List UInt8} {n : Nat} (h : caseEq (l.take n) lit)
    (hn : lit.length = n) : n ≤ l.length := by
  have := congrArg List.length (eq_of_beq h)
  simp at this
  omega

theorem cstr_nulFree (l : List UInt8) : 0 ∉ cstr l := by
  intro h
  have := List.mem_takeWhile_imp h
  simp at this

theorem cstr_length_le (l : List UInt8) : (cstr l).length ≤ l.length :=
  (List.takeWhile_prefix _).length_le

theorem parseHeaders_line {s : Nat} {l : List UInt8} (h : LineAt c.readBuf s l) :
    c.parseHeaders s = .ok (headerStep c s l) := by
  have ht := h.text
  have hle := cstr_length_le l
  have hconn : strncasecmp readBufferSize c.readBuf s (ascii "Connection:") 11 =
      .ok (caseEq ((cstr l).take 11) (ascii "Connection:")) :=
    strncasecmp_text ht (by decide) (by decide)
  have hlen : strncasecmp readBufferSize c.readBuf s (ascii "Content-Length") 15 =
      .ok (caseEq (cstr l) (ascii "Content-Length")) :=
    strncasecmp_whole ht (by decide)
  have hhost : strncasecmp readBufferSize c.readBuf s (ascii "Host:") 5 =
      .ok (caseEq ((cstr l).take 5) (ascii "Host:")) :=
    strncasecmp_text ht (by decide) (by decide)
  simp only [parseHeaders, loadBuf_text ht, ok_bind, headerStep]
  by_cases hnil : cstr l = []
  · simp only [hnil, List.head?_nil, Option.getD_none, if_true, pure_eq_ok]
    split <;> rfl
  have h0 : (cstr l).head?.getD 0 ≠ 0 := by
    have hnul := cstr_nulFree l
    cases hc : cstr l with
    | nil => exact absurd hc hnil
    | cons b r =>
      rw [hc] at hnul
      simpa using fun e : b = 0 => hnul (by simp [e])
  simp only [h0, hnil, if_false, hconn, ok_bind]
  by_cases h1 : caseEq ((cstr l).take 11) (ascii "Connection:")
  · have h11 := length_le_of_caseEq_take h1 (by decide)
    have hval := (ht.drop h11).dropWhile isBlank
    simp only [h1, if_true, strspn_blanks (ht.drop h11), ok_bind,
      strcasecmp_text hval (show 0 ∉ ascii "keep-alive" by decide)]
    split <;> rfl
  simp only [h1, hlen, ok_bind]
  by_cases h2 : caseEq (cstr l) (ascii "Content-Length")
  · have h14 : (cstr l).length = 14 := by
      have := congrArg List.length (eq_of_beq h2)
      simpa [ascii] using this
    have h15 := h.textFrom (k := 15) (by omega)
    simp [h2, strspn_blanks h15, atol_text (h15.dropWhile isBlank)]
  simp only [h2, hhost, ok_bind]
  by_cases h3 : caseEq ((cstr l).take 5) (ascii "Host:")
  · have h5 := length_le_of_caseEq_take h3 (by decide)
    simp [h3, strspn_blanks (ht.drop h5)]
  · simp [h3]

-- ---------------------------------------------------------------------------
-- The file path
-- ---------------------------------------------------------------------------

/-- `m_real_file` after `do_request` copied the URL `p`, of which 186 bytes fit. -/
def realFileOf (m : Mem) (p : List UInt8) : Mem :=
  blit (blit m 0 (docRoot ++ [0])) docRoot.length (p.take 186 ++ List.replicate (186 - p.length) 0)

theorem resolve_text {u : Nat} {p : List UInt8} (hu : c.url = some u)
    (h : TextAt readBufferSize c.readBuf u p) :
    c.resolve = .ok { c with realFile := realFileOf c.realFile p } := by
  simp only [resolve, hu]
  rw [show filenameLen - docRoot.length - 1 = 186 by decide, strncpySrc_text h, ok_bind]
  rfl

/-- The last byte of `m_real_file` is out of reach of both copies. -/
theorem realFileOf_last (m : Mem) (p : List UInt8) :
    realFileOf m p (filenameLen - 1) = m (filenameLen - 1) := by
  rw [realFileOf, blit_apply, dif_neg, blit_apply, dif_neg]
  · decide
  · rw [List.length_append, List.length_take, List.length_replicate,
      show docRoot.length = 13 by decide]
    simp only [filenameLen]
    omega

/-- The path that `do_request` looks up for the URL `p`. -/
def pathOf (p : List UInt8) : List UInt8 :=
  docRoot ++ p.take 186

theorem realFileOf_text {m : Mem} (hm : m (filenameLen - 1) = 0) {p : List UInt8} (hp : 0 ∉ p) :
    TextAt filenameLen (realFileOf m p) 0 (pathOf p) := by
  have hroot : docRoot.length = 13 := by decide
  have hlen : (pathOf p).length = 13 + min 186 p.length := by simp [pathOf, hroot]
  have hget : ∀ i, realFileOf m p i = if h : i < 13 then docRoot[i] else
      if h : i - 13 < min 186 p.length then p[i - 13] else if i < 199 then 0 else m i := by
    intro i
    have hpad : (p.take 186 ++ List.replicate (186 - p.length) (0 : UInt8)).length = 186 := by
      rw [List.length_append, List.length_take, List.length_replicate]
      omega
    by_cases h13 : i < 13
    · rw [realFileOf, blit_apply, dif_neg (by omega), blit_apply, dif_pos (by simp; omega), dif_pos h13,
        List.getElem_append_left (by omega)]
      rfl
    · by_cases h199 : i < 199
      · rw [realFileOf, blit_apply, dif_pos (by rw [hpad]; omega)]
        simp only [h13, hroot, h199, dite_false, if_true]
        by_cases hi : i - 13 < min 186 p.length
        · rw [dif_pos hi, List.getElem_append_left (by rw [List.length_take]; omega), List.getElem_take]
        · rw [dif_neg hi, List.getElem_append_right (by rw [List.length_take]; omega), List.getElem_replicate]
      · rw [realFileOf, blit_apply, dif_neg (by rw [hpad]; omega), blit_apply,
          dif_neg (by simp; omega), dif_neg h13, dif_neg (by omega), if_neg h199]
  refine ⟨by rw [hlen]; simp only [filenameLen]; omega, ?_, ?_, ?_⟩
  · intro k hk
    rw [hlen] at hk
    rw [Nat.zero_add, hget k]
    by_cases h13 : k < 13
    · rw [dif_pos h13]
      simp only [pathOf]
      rw [List.getElem_append_left (by omega)]
      rfl
    · rw [dif_neg h13, dif_pos (by omega)]
      simp only [pathOf]
      rw [List.getElem_append_right (by omega), List.getElem_take]
      simp only [hroot]
  · simp only [pathOf, List.mem_append, not_or]
    exact ⟨by decide, fun h0 => hp (List.mem_of_mem_take h0)⟩
  · rw [Nat.zero_add, hget, hlen, dif_neg (by omega), dif_neg (by omega)]
    split
    · rfl
    · rw [show 13 + min 186 p.length = filenameLen - 1 by simp only [filenameLen]; omega]
      exact hm

/-- The end of `do_request`, on the path it has put together. -/
def openStep (fs : FileSystem) (c : HttpConn) (path : List UInt8) : HttpConn × HttpCode :=
  match fs.stat path with
  | none => (c, .noResource)
  | some st =>
    if st.iroth then
      if st.isdir then ({ c with fileStat := st }, .badRequest)
      else ({ c with fileStat := st, fileAddress := fs.mmap path st.size }, .fileRequest)
    else ({ c with fileStat := st }, .forbiddenRequest)

theorem doRequest_text (fs : FileSystem) {u : Nat} {p : List UInt8} (hu : c.url = some u)
    (h : TextAt readBufferSize c.readBuf u p) (hend : c.realFile (filenameLen - 1) = 0) :
    c.doRequest fs = .ok (openStep fs { c with realFile := realFileOf c.realFile p } (pathOf p)) := by
  simp only [doRequest, resolve_text hu h, ok_bind, cstring_text (realFileOf_text hend h.nulFree),
    openStep]
  cases fs.stat (pathOf p) with
  | none => rfl
  | some st => cases hr : st.iroth <;> cases hd : st.isdir <;> simp [hr, hd]

/-- What `do_request` may change. -/
theorem doRequest_same (fs : FileSystem) :
    Ensures (c.doRequest fs) fun r => ∃ m st a,
      r.1 = { c with realFile := m, fileStat := st, fileAddress := a } := by
  have hres : Ensures c.resolve fun d => ∃ m, d = { c with realFile := m } := by
    unfold resolve
    split
    · exact .throw
    · exact .bind_any fun _ => .pure ⟨_, rfl⟩
  refine hres.bind fun d hd => ?_
  obtain ⟨m, rfl⟩ := hd
  refine .bind_any fun path => ?_
  split
  · exact .pure ⟨_, _, _, rfl⟩
  · refine .ite (.pure ⟨_, _, _, rfl⟩) (.ite (.pure ⟨_, _, _, rfl⟩) (.pure ⟨_, _, _, rfl⟩))

end HttpConn

end Http
