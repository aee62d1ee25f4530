-- SUMMARY: tail_scratch: the backward scan for the last lines, and exactly which files it prints right.
import LinuxLearning.Common.Lines
import LinuxLearning.Common.Memory
import Mathlib.Algebra.Group.Nat.Defs
import Mathlib.Data.List.Induction

/-!
# tail

The scan goes back one byte at a time and counts newlines. It ends at the beginning of the
file, or at the newline before the last `n` lines, and the position alone tells which.
-/

namespace Scratch

open Memory Lines

/-- A file that is read, with what lies behind its position. -/
structure Stream where
  content : List UInt8
  rest : List UInt8

namespace Stream

def fseek (fin : Stream) (p : Nat) : Stream :=
  { fin with rest := fin.content.drop p }

/-- `EOF` is `-1`. -/
def fgetc (fin : Stream) : Int × Stream :=
  match fin.rest with
  | [] => (-1, fin)
  | b :: rest => (b.toNat, { fin with rest := rest })

end Stream

namespace Tail

variable {fin : Stream} {n p cnt : Nat} {pre suf l : List UInt8} {b : UInt8} {ls : List (List UInt8)}

-- ---------------------------------------------------------------------------
-- The program
-- ---------------------------------------------------------------------------

/-- `while((c = fgetc(fin)) != EOF) putchar(c);`, over what lies behind the position. -/
def putRest : List UInt8 → List UInt8
  | [] => []
  | b :: rest =>
    let c := Int8.ofInt b.toNat
    if c.toInt = -1 then [] else c.toUInt8 :: putRest rest

/-- The scan, with the position it ends at. -/
def scan (n : Nat) : Nat → Nat → Stream → Nat × Stream
  | 0, _, fin => (0, fin)
  | p + 1, cnt, fin =>
    let fin := fin.fseek p
    let (v, fin) := fin.fgetc
    let c := Int8.ofInt v
    if c = 10 then
      if cnt = n then (p, fin) else scan n p (cnt + 1) fin
    else
      scan n p cnt fin

/-- `main`, from the number that `parse_opt` returns on: what is printed, and the exit code.
    The position of the end of the file has to fit in an `int`. -/
def main (n : Int) (file : Option (List UInt8)) : Except Fault (List UInt8 × Nat) :=
  match file with
  | none => return ([], 1)
  | some content =>
    let fin : Stream := ⟨content, content⟩
    if n = 0 then return ([], 0)
    else if n < 0 then return (putRest fin.rest, 1)
    else if 2 ^ 31 ≤ content.length then throw (.intOverflow content.length)
    else
      let (p, fin) := scan n.toNat content.length 0 fin
      let fin := if p = 0 then fin.fseek 0 else fin
      return (putRest fin.rest, 0)

-- ---------------------------------------------------------------------------
-- One byte
-- ---------------------------------------------------------------------------

/-- `char` is signed. -/
theorem char_eq (b : UInt8) : Int8.ofInt b.toNat = b.toInt8 := by
  rw [← Int8.toBitVec_inj]
  simp

theorem char_newline : b.toInt8 = 10 ↔ b = 10 := by
  rw [← Int8.toBitVec_inj, ← UInt8.toBitVec_inj]
  rfl

/-- `0xFF` is taken for the end of the file. -/
theorem char_eof : b.toInt8.toInt = -1 ↔ b = 255 := by
  have hchar : b.toInt8 = -1 ↔ b = 255 := by
    rw [← Int8.toBitVec_inj, ← UInt8.toBitVec_inj]
    rfl
  rw [← hchar, ← Int8.toInt_inj]
  rfl

/-- Bytes other than `0xFF` are put as they are read. -/
theorem putRest_eq {rest : List UInt8} (h : 255 ∉ rest) : putRest rest = rest := by
  induction rest with
  | nil => rfl
  | cons b rest ih =>
    obtain ⟨hb, hrest⟩ := not_or.mp (mt List.mem_cons.mpr h)
    simp only [putRest, char_eq]
    rw [if_neg (mt char_eof.mp (Ne.symm hb)), UInt8.toUInt8_toInt8, ih hrest]

-- ---------------------------------------------------------------------------
-- The scan
-- ---------------------------------------------------------------------------

theorem scan_succ (h : fin.content = pre ++ b :: suf) :
    scan n (pre.length + 1) cnt fin =
      if b = 10 then
        if cnt = n then (pre.length, { fin with rest := suf })
        else scan n pre.length (cnt + 1) { fin with rest := suf }
      else scan n pre.length cnt { fin with rest := suf } := by
  have hseek : fin.fseek pre.length = { fin with rest := b :: suf } := by
    rw [Stream.fseek, h, List.drop_left]
  simp only [scan, hseek, Stream.fgetc, char_eq, char_newline]

/-- The scan goes through a line without a stop. -/
theorem scan_line (hl : 10 ∉ l) (h : fin.content = pre ++ l ++ suf) :
    ∃ fin' : Stream, fin'.content = fin.content ∧
      scan n (pre ++ l).length cnt fin = scan n pre.length cnt fin' := by
  induction l using List.reverseRecOn generalizing suf fin with
  | nil => exact ⟨fin, rfl, by rw [List.append_nil]⟩
  | append_singleton l b ih =>
    have hb : b ≠ 10 := fun heq => hl (by simp [heq])
    have hl' : 10 ∉ l := fun hmem => hl (List.mem_append_left _ hmem)
    have hcut : fin.content = (pre ++ l) ++ b :: suf := by simp [h]
    obtain ⟨fin', hcontent, hscan⟩ := @ih { fin with rest := suf } (b :: suf) hl' hcut
    refine ⟨fin', hcontent, ?_⟩
    rw [← hscan, ← List.append_assoc, List.length_append, List.length_singleton, scan_succ hcut, if_neg hb]

/-- Where the scan ends that has counted `cnt` newlines, before the lines `ls`: at the beginning
    when they are too few, and else at the end of the line before the ones to print. -/
theorem scan_lines (hls : ∀ l ∈ ls, 10 ∉ l) (hcnt : cnt ≤ n) (h : fin.content = text 10 ls ++ suf) :
    ls.length + cnt ≤ n ∧ (∃ fin', fin'.content = fin.content ∧ scan n (text 10 ls).length cnt fin = (0, fin')) ∨
      ∃ k p, ls.length + cnt = n + (k + 1) ∧ p + 1 = (text 10 (ls.take (k + 1))).length ∧
        scan n (text 10 ls).length cnt fin = (p, { fin with rest := text 10 (ls.drop (k + 1)) ++ suf }) := by
  induction ls using List.reverseRecOn generalizing cnt suf fin with
  | nil => exact .inl ⟨by simpa using hcnt, fin, rfl, rfl⟩
  | append_singleton ls l ih =>
    have hl : 10 ∉ l := hls l (by simp)
    have hls' : ∀ l ∈ ls, 10 ∉ l := fun l hmem => hls l (List.mem_append_left _ hmem)
    have hcut : fin.content = (text 10 ls ++ l) ++ 10 :: suf := by simp [h]
    have hlen : (text 10 (ls ++ [l])).length = (text 10 ls ++ l).length + 1 := by
      simp [Nat.add_assoc]
    rw [hlen, scan_succ hcut, if_pos rfl]
    by_cases hn : cnt = n
    · -- the newline before the last `n` lines
      refine .inr ⟨ls.length, (text 10 ls ++ l).length, ?_, ?_, ?_⟩
      · rw [List.length_append, List.length_singleton]
        omega
      · rw [List.take_of_length_le (by simp), hlen]
      · rw [if_pos hn, List.drop_of_length_le (by simp), text_nil, List.nil_append]
    · rw [if_neg hn]
      obtain ⟨fin₁, hcontent, hscan⟩ :=
        @scan_line { fin with rest := suf } n (cnt + 1) (text 10 ls) (10 :: suf) l hl hcut
      rw [hscan]
      have hcut₁ : fin₁.content = text 10 ls ++ (l ++ 10 :: suf) := by
        rw [hcontent, hcut, List.append_assoc]
      rcases @ih fin₁ (cnt + 1) _ hls' (by omega) hcut₁ with ⟨hfew, fin₂, hcontent₂, hend⟩ | ⟨k, p, hcount, hp, hend⟩
      · exact .inl ⟨by rw [List.length_append, List.length_singleton]; omega, fin₂, hcontent₂.trans hcontent, hend⟩
      · have hk : k + 1 ≤ ls.length := by omega
        refine .inr ⟨k, p, ?_, ?_, ?_⟩
        · rw [List.length_append, List.length_singleton]
          omega
        · rw [List.take_append_of_le_length hk, hp]
        · rw [hend, List.drop_append_of_le_length hk, text_append, text_cons, text_nil, hcontent]
          simp

-- ---------------------------------------------------------------------------
-- What is printed
-- ---------------------------------------------------------------------------

/-- The last `n` lines of a text. -/
def lastLines (n : Nat) (content : List UInt8) : List UInt8 :=
  text 10 ((lines 10 content).drop ((lines 10 content).length - n))

/-- The newline before the last `n` lines is the first byte. -/
def StartsBlank (n : Nat) (content : List UInt8) : Prop :=
  (lines 10 content).length = n + 1 ∧ content.head? = some 10

/-- The lines before the ones to print take up one byte exactly if they are one empty line. -/
theorem length_text_take {k : Nat} (hk : k < ls.length) :
    (text 10 (ls.take (k + 1))).length = 1 ↔ k = 0 ∧ ls.head? = some [] := by
  cases ls with
  | nil => cases hk
  | cons l ls =>
    have hlen : (text 10 ((l :: ls).take (k + 1))).length = l.length + 1 + (text 10 (ls.take k)).length := by
      simp [Nat.add_assoc, Nat.add_comm]
    have hzero : (text 10 (ls.take k)).length = 0 ↔ k = 0 := by
      rw [List.length_eq_zero_iff, text_eq_nil_iff, List.take_eq_nil_iff]
      constructor
      · rintro (hk' | rfl)
        · exact hk'
        · simpa using hk
      · exact .inl
    have hhead : (l :: ls).head? = some [] ↔ l.length = 0 := by simp
    rw [hlen, hhead, ← hzero]
    omega

/-- `tail` prints the last `n` lines of a file exactly if it does not stop at the first byte:
    then it prints one line more. -/
theorem main_lastLines_iff {n : Int} (hn : 1 ≤ n) {content : List UInt8} (hlines : Terminated 10 content)
    (heof : 255 ∉ content) (hlen : content.length < 2 ^ 31) :
    main n (some content) = .ok (lastLines n.toNat content, 0) ↔ ¬ StartsBlank n.toNat content := by
  have htext : text 10 (lines 10 content) = content := text_lines hlines
  have hcontent : content = text 10 (lines 10 content) ++ [] := by rw [htext, List.append_nil]
  have hfew := @scan_lines ⟨content, content⟩ n.toNat 0 [] (lines 10 content)
    (fun l hl => sep_notMem_of_mem_lines l hl) (Nat.zero_le _) hcontent
  rw [htext] at hfew
  unfold main StartsBlank
  rw [← head_lines]
  simp only [if_neg (show ¬ n = 0 by omega), if_neg (show ¬ n < 0 by omega), if_neg (Nat.not_le.mpr hlen)]
  rcases hfew with ⟨hcount, fin, hfin, hend⟩ | ⟨k, p, hcount, hp, hend⟩
  · have hdrop : (lines 10 content).length - n.toNat = 0 := by omega
    have hprint : putRest (fin.fseek 0).rest = lastLines n.toNat content := by
      rw [Stream.fseek, hfin, lastLines, hdrop, List.drop_zero, List.drop_zero, htext, putRest_eq heof]
    rw [hend]
    simp only [if_true, hprint]
    exact ⟨fun _ h => absurd h.1 (by omega), fun _ => rfl⟩
  · have hk : k < (lines 10 content).length := by omega
    have hdrop : (lines 10 content).length - n.toNat = k + 1 := by omega
    have hlast : lastLines n.toNat content = text 10 ((lines 10 content).drop (k + 1)) := by
      rw [lastLines, hdrop]
    have hcut := @text_take_append_drop _ 10 (k + 1) (lines 10 content)
    rw [htext, ← hlast] at hcut
    have hone := length_text_take hk
    rw [hend]
    by_cases hp0 : p = 0
    · -- the whole file is printed
      have hprint : ∀ rest, putRest ((⟨content, rest⟩ : Stream).fseek 0).rest = content :=
        fun _ => putRest_eq heof
      have hlonger : content.length = p + 1 + (lastLines n.toNat content).length := by
        rw [hp, ← List.length_append, hcut]
      have hfirst := hone.mp (by omega)
      simp only [if_pos hp0, hprint]
      refine ⟨fun h => ?_, fun h => absurd ⟨by omega, hfirst.2⟩ h⟩
      have hsame : content = lastLines n.toNat content := congrArg Prod.fst (Except.ok.inj h)
      have := congrArg List.length hsame
      omega
    · have hrest : 255 ∉ lastLines n.toNat content := fun hmem => heof (hcut ▸ List.mem_append_right _ hmem)
      simp only [if_neg hp0, List.append_nil, ← hlast, putRest_eq hrest]
      refine ⟨fun _ ⟨hlen, hhead⟩ => ?_, fun _ => rfl⟩
      have := hone.mpr ⟨by omega, hhead⟩
      omega

theorem main_lastLines_iff_two : main 2 (some [10, 97, 10, 10]) = .ok (lastLines 2 [10, 97, 10, 10], 0) ↔
    ¬ StartsBlank 2 [10, 97, 10, 10] :=
  main_lastLines_iff (by decide) (.inr rfl) (by decide) (by decide)

/-- The last line of two empty ones is one newline, and two are printed. -/
theorem blank_line_printed : main 1 (some [10, 10]) = .ok ([10, 10], 0) ∧ lastLines 1 [10, 10] = [10] :=
  ⟨by decide, by decide⟩

end Tail

end Scratch
