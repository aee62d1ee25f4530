-- SUMMARY: The request lines that parse_request_line accepts, as a grammar, and that it accepts exactly these.
import LinuxLearning.HttpConn.LineText

/-!
# The grammar of request lines

`requestTarget` says what `parse_request_line` computes. Here the lines are put together
from their parts, and the two are the same.
-/

namespace Http

open Memory CString

/-- Some blanks, and nothing else. -/
def IsBlanks (l : List UInt8) : Prop :=
  l ≠ [] ∧ ∀ b ∈ l, isBlank b

/-- Bytes without a blank. -/
def BlankFree (l : List UInt8) : Prop :=
  ∀ b ∈ l, isBlank b = false

instance : DecidablePred BlankFree := fun l => List.decidableBAll (fun b => isBlank b = false) l

/-- A target with the path that it names: the path itself, or a URL. -/
inductive Target : List UInt8 → List UInt8 → Prop where
  | origin {t : List UInt8} : t.head? = some 47 → Target t t
  | absolute {t : List UInt8} : caseEq (t.take 7) (ascii "http://") → 47 ∈ t.drop 7 →
      Target t ((t.drop 7).dropWhile (· != 47))

/-- A request line with the path of its target. -/
inductive RequestLine : List UInt8 → List UInt8 → Prop where
  | intro {method b₁ target b₂ version path : List UInt8} : caseEq method (ascii "GET") → IsBlanks b₁ →
      target ≠ [] → BlankFree target → IsBlanks b₂ → caseEq version (ascii "HTTP/1.1") →
      Target target path → RequestLine (method ++ b₁ ++ target ++ b₂ ++ version) path

variable {l f b r t path lit : List UInt8}

theorem isBlank_iff (x : UInt8) : isBlank x ↔ x = 32 ∨ x = 9 := by
  simp [isBlank]

theorem isBlank_tolower (x : UInt8) : isBlank (tolower x) = isBlank x := by
  rw [Bool.eq_iff_iff, isBlank_iff, isBlank_iff, tolower]
  split
  · rename_i h
    obtain ⟨hlo, hhi⟩ := h
    rw [UInt8.le_iff_toNat_le] at hlo hhi
    simp only [← UInt8.toNat_inj, UInt8.toNat_add] at *
    simp at hlo hhi ⊢
    omega
  · rfl

/-- A word that equals one without blanks has none. -/
theorem BlankFree.of_caseEq (h : caseEq l lit) (hlit : BlankFree lit) : BlankFree l := by
  intro x hx
  have hmem : tolower x ∈ lit.map tolower := eq_of_beq h ▸ List.mem_map_of_mem hx
  obtain ⟨y, hy, heq⟩ := List.mem_map.mp hmem
  rw [← isBlank_tolower, ← heq, isBlank_tolower]
  exact hlit y hy

/-- The first field of a line, and what follows the blanks behind it. -/
theorem field_of_split (hf : BlankFree f) (hb : IsBlanks b) (hr : BlankFree (r.take 1)) :
    (f ++ b ++ r).takeWhile (fun x => !isBlank x) = f ∧
    ((f ++ b ++ r).drop (f.length + 1)).dropWhile isBlank = r := by
  obtain ⟨hne, hb⟩ := hb
  obtain ⟨x, b, rfl⟩ := List.exists_cons_of_ne_nil hne
  rw [List.forall_mem_cons] at hb
  constructor
  · rw [List.append_assoc, List.takeWhile_append_of_pos (fun y hy => by simp [hf y hy]),
      List.cons_append, List.takeWhile_cons_of_neg (by simp [hb.1]), List.append_nil]
  · have hdrop : (f ++ x :: b ++ r).drop (f.length + 1) = b ++ r := by simp
    rw [hdrop, List.dropWhile_append_of_pos hb.2]
    cases r with
    | nil => rfl
    | cons y r => rw [List.dropWhile_cons_of_neg (by simp [hr y (by simp)])]

/-- A line with a blank is its first field, blanks, and the rest. -/
theorem split_of_field (hlt : (l.takeWhile fun x => !isBlank x).length < l.length) :
    ∃ b, IsBlanks b ∧ BlankFree ((l.takeWhile fun x => !isBlank x)) ∧
      l = (l.takeWhile fun x => !isBlank x) ++ b ++
        (l.drop ((l.takeWhile fun x => !isBlank x).length + 1)).dropWhile isBlank := by
  have hfree : BlankFree (l.takeWhile fun x => !isBlank x) := by
    intro x hx
    simpa using List.mem_takeWhile_imp hx
  rcases takeWhile_split (fun x => !isBlank x) l with ⟨ht, -⟩ | ⟨x, r, hl, -, hx⟩
  · rw [ht] at hlt
    exact absurd hlt (Nat.lt_irrefl _)
  · generalize (l.takeWhile fun x => !isBlank x) = f at *
    subst hl
    have hdrop : (f ++ x :: r).drop (f.length + 1) = r := by simp
    refine ⟨x :: r.takeWhile isBlank, ⟨List.cons_ne_nil _ _, ?_⟩, hfree, ?_⟩
    · rw [List.forall_mem_cons]
      exact ⟨by simpa using hx, fun y hy => List.mem_takeWhile_imp hy⟩
    · rw [hdrop, List.append_assoc, List.cons_append, List.takeWhile_append_dropWhile]

theorem target_iff : Target t path ↔ targetPath t = path ∧ path.head? = some 47 := by
  constructor
  · rintro (hhead | ⟨hscheme, hmem⟩)
    · have hscheme : ¬ caseEq (t.take 7) (ascii "http://") := by
        obtain ⟨r, rfl⟩ : ∃ r, t = 47 :: r := List.head?_eq_some_iff.mp hhead
        intro h
        have h := congrArg List.head? (eq_of_beq h)
        simp [ascii, tolower] at h
      exact ⟨if_neg hscheme, hhead⟩
    · refine ⟨if_pos hscheme, ?_⟩
      have hne : (t.drop 7).dropWhile (· != 47) ≠ [] := by
        rw [ne_eq, List.dropWhile_eq_nil_iff]
        intro h
        simpa using h 47 hmem
      obtain ⟨x, r, hx⟩ := List.exists_cons_of_ne_nil hne
      have hhead := List.head_dropWhile_not (· != 47) hne
      simp only [hx, List.head_cons, bne_eq_false_iff_eq] at hhead
      rw [hx, List.head?_cons, hhead]
  · rintro ⟨rfl, hhead⟩
    unfold targetPath at hhead ⊢
    split at hhead
    · rename_i hscheme
      rw [if_pos hscheme]
      refine .absolute hscheme ?_
      exact (List.dropWhile_suffix _).subset (List.mem_of_mem_head? hhead)
    · rename_i hscheme
      rw [if_neg hscheme]
      exact .origin hhead

theorem Target.ne_nil (h : Target t path) : t ≠ [] := by
  rintro rfl
  rcases h with hhead | ⟨-, hmem⟩
  · cases hhead
  · cases hmem

/-- The part of a request line behind the method. -/
theorem urlTarget_iff : urlTarget l = some path ↔ ∃ target b version, l = target ++ b ++ version ∧
    BlankFree target ∧ IsBlanks b ∧ caseEq version (ascii "HTTP/1.1") ∧ Target target path := by
  constructor
  · intro h
    simp only [urlTarget] at h
    split at h
    · rename_i hurl
      obtain ⟨b, hb, hfree, hsplit⟩ := split_of_field hurl.1
      exact ⟨_, b, _, hsplit, hfree, hb, hurl.2.1, target_iff.mpr ⟨Option.some.inj h, Option.some.inj h ▸ hurl.2.2⟩⟩
    · cases h
  · rintro ⟨target, b, version, rfl, hfree, hb, hver, htarget⟩
    have hvfree : BlankFree (version.take 1) := fun x hx =>
      BlankFree.of_caseEq hver (by decide) x (List.mem_of_mem_take hx)
    obtain ⟨hfield, hrest⟩ := field_of_split hfree hb hvfree
    obtain ⟨hpath, hhead⟩ := target_iff.mp htarget
    have hpos := List.length_pos_iff.mpr hb.1
    have hlt : target.length < (target ++ b ++ version).length := by
      simp only [List.length_append]
      omega
    simp only [urlTarget, hfield, hrest, hpath]
    rw [if_pos ⟨hlt, hver, hhead⟩]

/-- The lines of the grammar are the ones with a target. -/
theorem requestTarget_iff : requestTarget l = some path ↔ RequestLine l path := by
  constructor
  · intro h
    simp only [requestTarget] at h
    split at h
    · rename_i hmeth
      obtain ⟨b₁, hb₁, -, hsplit⟩ := split_of_field hmeth.1
      obtain ⟨target, b₂, version, hrest, hfree, hb₂, hver, htarget⟩ := urlTarget_iff.mp h
      rw [hsplit, hrest, ← List.append_assoc, ← List.append_assoc]
      exact ⟨hmeth.2, hb₁, htarget.ne_nil, hfree, hb₂, hver, htarget⟩
    · cases h
  · rintro @⟨method, b₁, target, b₂, version, _, hmeth, hb₁, hne, hfree, hb₂, hver, htarget⟩
    have hrfree : BlankFree ((target ++ b₂ ++ version).take 1) := by
      obtain ⟨x, r, rfl⟩ := List.exists_cons_of_ne_nil hne
      intro y hy
      simp only [List.cons_append, List.take_succ_cons, List.take_zero, List.mem_singleton] at hy
      exact hfree y (by simp [hy])
    obtain ⟨hfield, hrest⟩ := field_of_split (BlankFree.of_caseEq hmeth (by decide)) hb₁ hrfree
    have hpos := List.length_pos_iff.mpr hb₁.1
    have hlt : method.length < (method ++ b₁ ++ (target ++ b₂ ++ version)).length := by
      simp only [List.length_append]
      omega
    have hurl : urlTarget (target ++ b₂ ++ version) = some path :=
      urlTarget_iff.mpr ⟨target, b₂, version, rfl, hfree, hb₂, hver, htarget⟩
    rw [show method ++ b₁ ++ target ++ b₂ ++ version = method ++ b₁ ++ (target ++ b₂ ++ version) by
      simp only [List.append_assoc]]
    simp only [requestTarget, hfield, hrest, hurl]
    rw [if_pos ⟨hlt, hmeth⟩]

namespace HttpConn

/-- What `parse_request_line` makes of a line: it accepts the grammar, pointing `m_url` to
    the path, and rejects every other line in the state that it is in. -/
structure ParsesRequestLine (c : HttpConn) (l : List UInt8) (c' : HttpConn) (code : HttpCode) : Prop where
  accepts : code = .noRequest ∧ c'.checkState = .header ↔ ∃ path, RequestLine l path
  url : ∀ path, RequestLine l path → ∃ u, c'.url = some u ∧ TextAt readBufferSize c'.readBuf u path
  rejects : (¬ ∃ path, RequestLine l path) → code = .badRequest ∧ c'.checkState = c.checkState

/-- `parse_request_line` on any C string in the read buffer. -/
theorem parseRequestLine_exact (c : HttpConn) {text : Nat} (h : TextAt readBufferSize c.readBuf text l) :
    ∃ c' code, c.parseRequestLine text = .ok (c', code) ∧ ParsesRequestLine c l c' code := by
  obtain ⟨hcode, hstep⟩ := requestLineStep_text h
  refine ⟨(requestLineStep c text l).1, (requestLineStep c text l).2, parseRequestLine_line h, ?_, fun path hline => ?_, fun hnone => ?_⟩
  · rw [hcode]
    cases htarget : requestTarget l with
    | none =>
      refine iff_of_false (by simp) ?_
      rintro ⟨path, hline⟩
      rw [requestTarget_iff.mpr hline] at htarget
      cases htarget
    | some path => exact iff_of_true ⟨rfl, (hstep.accept path htarget).1⟩ ⟨path, requestTarget_iff.mp htarget⟩
  · obtain ⟨-, u, hu, -, -, htext⟩ := hstep.accept path (requestTarget_iff.mpr hline)
    exact ⟨u, hu, htext⟩
  · have htarget : requestTarget l = none := Option.eq_none_iff_forall_ne_some.mpr fun path hpath =>
      hnone ⟨path, requestTarget_iff.mp hpath⟩
    rw [hcode, htarget]
    exact ⟨rfl, hstep.reject htarget⟩

/-- The authority of a URL is skipped. -/
theorem parseRequestLine_exact_url :
    ∃ c' code, (blank.append (ascii "get\t HTTP://h/x http/1.1")).parseRequestLine 0 = .ok (c', code) ∧
      ParsesRequestLine (blank.append (ascii "get\t HTTP://h/x http/1.1"))
        (ascii "get\t HTTP://h/x http/1.1") c' code :=
  parseRequestLine_exact _ (TextAt.of_bytes (bytes_blit _ 0 _) (by decide) (by decide))

end HttpConn

end Http
