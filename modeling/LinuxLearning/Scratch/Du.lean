-- SUMMARY: du_scratch: the walk of a directory tree through one path buffer, and exactly which totals it returns right.
import LinuxLearning.Common.CString

/-!
# du

All levels of the recursion share the buffer `s`: a level appends a name, a directory below
appends the slash, and each cuts the buffer back to its own prefix. Sums are of type `long`,
and what a level returns is an `unsigned int`.
-/

namespace Scratch

open Memory CString

namespace Du

/-- The size of `s`. -/
def cap : Nat := 1024

/-- What `stat` tells of a file. -/
structure Status where
  isdir : Bool
  isreg : Bool
  blocks : Int

/-- What `stat` and `opendir` answer for a path. A directory is the names that `readdir`
    goes through. -/
structure FileSystem where
  stat : List UInt8 → Option Status
  opendir : List UInt8 → Option (List (List UInt8))

/-- The buffer `s`, the paths passed to `stat`, and the lines printed. -/
structure Walk where
  s : Mem
  statted : List (List UInt8)
  printed : List (Int × List UInt8)

/-- A sum or product of type `long`. -/
def long (v : Int) : Except Fault Int :=
  if -9223372036854775808 ≤ v ∧ v ≤ 9223372036854775807 then return v else throw (.intOverflow v)

-- ---------------------------------------------------------------------------
-- The program
-- ---------------------------------------------------------------------------

/-- What is done with an entry whose path is in `s`; `dfs` is the call for a directory. A null
    `child_dir` is passed to `closedir`, which refuses it. -/
def visit (fs : FileSystem) (dfs : List (List UInt8) → Nat → Walk → Except Fault (UInt32 × Walk))
    (name : List UInt8) (p : Nat) (st : Status) (sz : Int) (w : Walk) : Except Fault (Int × Walk) :=
  if name = ascii ".." ∨ name = ascii "." then return (sz, w)
  else if st.isdir then do
    let path ← cstring cap w.s 0
    match fs.opendir path with
    | none => return (sz, w)
    | some childDir =>
      let len := name.length
      let s ← store cap w.s (p + len : Nat) 47
      let s ← store cap s (p + len + 1 : Nat) 0
      let (r, w) ← dfs childDir (p + len + 1) { w with s := s }
      let sz ← long (sz + r.toNat)
      return (sz, w)
  else if st.isreg then do
    let bytes ← long (st.blocks * 512)
    let sz ← long (sz + bytes)
    return (sz, w)
  else return (sz, w)

/-- The loop of `Dfs` over what is left of the directory, and its end. `st` holds `junk` until
    a call of `stat` succeeds. -/
def readLoop (fs : FileSystem) (junk : Status) :
    Nat → List (List UInt8) → Nat → Status → Int → Walk → Except Fault (UInt32 × Walk)
  | 0, _, _, _, _, _ => throw .outOfFuel
  | _ + 1, [], _, _, sz, w => do
    let text ← cstring cap w.s 0
    return (UInt32.ofInt sz, { w with printed := w.printed ++ [(sz.tdiv 1024, text)] })
  | n + 1, name :: dir, p, st, sz, w => do
    let s ← strcat cap w.s 0 name
    let path ← cstring cap s 0
    let st := (fs.stat path).getD st
    let (sz, w) ← visit fs (fun child p w => readLoop fs junk n child p junk 4096 w) name p st sz
      { w with s := s, statted := w.statted ++ [path] }
    let s ← store cap w.s p 0
    readLoop fs junk n dir p st sz { w with s := s }

def dfs (fs : FileSystem) (junk : Status) (n : Nat) (dir : List (List UInt8)) (p : Nat) (w : Walk) :
    Except Fault (UInt32 × Walk) :=
  readLoop fs junk n dir p junk 4096 w

/-- `s[0] = '.'; s[1] = '/';` -/
def rootPath : Mem :=
  Function.update (Function.update (fun _ => 0) 0 46) 1 47

/-- `main`, on its first argument. -/
def main (fs : FileSystem) (junk : Status) (n : Nat) (arg : Option (List UInt8)) : Except Fault Walk :=
  match arg.bind fs.opendir with
  | none => return ⟨fun _ => 0, [], []⟩
  | some dir => do
    let (_, w) ← dfs fs junk n dir 2 ⟨rootPath, [], []⟩
    return w

-- ---------------------------------------------------------------------------
-- Directory trees
-- ---------------------------------------------------------------------------

/-- A directory in the order of its entries, each directory in it with its own: `special`
    is `.` or `..`. -/
inductive Listing where
  | nil
  | special (name : List UInt8) (rest : Listing)
  | file (name : List UInt8) (blocks : Nat) (rest : Listing)
  | dir (name : List UInt8) (children rest : Listing)

/-- The name of an entry that is not special. -/
structure Named (name : List UInt8) : Prop where
  nonempty : name ≠ []
  nulFree : 0 ∉ name
  ordinary : ¬ (name = ascii ".." ∨ name = ascii ".")

namespace Listing

def names : Listing → List (List UInt8)
  | .nil => []
  | .special name rest => name :: rest.names
  | .file name _ rest => name :: rest.names
  | .dir name _ rest => name :: rest.names

/-- The paths of the entries at every depth, under `pre`. -/
def paths (pre : List UInt8) : Listing → List (List UInt8)
  | .nil => []
  | .special name rest => (pre ++ name) :: rest.paths pre
  | .file name _ rest => (pre ++ name) :: rest.paths pre
  | .dir name children rest => (pre ++ name) :: (children.paths (pre ++ name ++ [47]) ++ rest.paths pre)

/-- What the entries add up to, at every depth. -/
def total : Listing → Nat
  | .nil => 0
  | .special _ rest => rest.total
  | .file _ blocks rest => 512 * blocks + rest.total
  | .dir _ children rest => 4096 + children.total + rest.total

/-- The file system has these entries under `pre`. -/
def At (fs : FileSystem) (pre : List UInt8) : Listing → Prop
  | .nil => True
  | .special name rest => (name = ascii ".." ∨ name = ascii ".") ∧ rest.At fs pre
  | .file name blocks rest => Named name ∧ fs.stat (pre ++ name) = some ⟨false, true, blocks⟩ ∧ rest.At fs pre
  | .dir name children rest => Named name ∧ (∃ blocks, fs.stat (pre ++ name) = some ⟨true, false, blocks⟩) ∧
      fs.opendir (pre ++ name) = some children.names ∧ children.At fs (pre ++ name ++ [47]) ∧ rest.At fs pre

/-- The paths fit in `s`, each with a slash and a terminator behind it. -/
def Fits (pre : List UInt8) (l : Listing) : Prop :=
  ∀ path ∈ l.paths pre, path.length + 2 ≤ cap

end Listing

variable {fs : FileSystem} {junk st : Status} {pre name tail : List UInt8} {w : Walk} {n : Nat} {sz : Int}
  {s : Mem} {dir : List (List UInt8)} {l : Listing}

-- ---------------------------------------------------------------------------
-- The buffer
-- ---------------------------------------------------------------------------

theorem store_nat {i : Nat} (hi : i < cap) (b : UInt8) : store cap s i b = .ok (Function.update s i b) :=
  if_pos ⟨by omega, by omega⟩

/-- `s[p] = '\0'` takes back what was appended. -/
theorem cut_back (h : TextAt cap s 0 (pre ++ tail)) (htail : tail ≠ []) :
    store cap s pre.length 0 = .ok (Function.update s pre.length 0) ∧
      TextAt cap (Function.update s pre.length 0) 0 pre := by
  have hpos := List.length_pos_iff.mpr htail
  have hbound := h.bound
  rw [List.length_append] at hbound
  refine ⟨store_nat (by omega) 0, ?_⟩
  have hcut := h.cut (k := pre.length) (by rw [List.length_append]; omega)
  rwa [Nat.zero_add, List.take_left] at hcut

/-- The slash and the terminator that a directory gets. -/
theorem append_slash (h : TextAt cap s 0 (pre ++ name)) (hfit : (pre ++ name).length + 2 ≤ cap) :
    ∃ s₁ s₂, store cap s (pre.length + name.length : Nat) 47 = .ok s₁ ∧
      store cap s₁ (pre.length + name.length + 1 : Nat) 0 = .ok s₂ ∧ TextAt cap s₂ 0 (pre ++ name ++ [47]) := by
  have hlen : 0 + (pre ++ name ++ [47]).length < cap := by
    rw [List.length_append, List.length_singleton]
    omega
  have happend : TextAt cap (blit s (0 + (pre ++ name).length) ([47] ++ [0])) 0 (pre ++ name ++ [47]) :=
    h.append (by decide) hlen
  rw [List.length_append] at hfit
  rw [Nat.zero_add, List.length_append] at happend
  exact ⟨_, _, store_nat (by omega) 47, store_nat (by omega) 0, happend⟩

-- ---------------------------------------------------------------------------
-- The walk
-- ---------------------------------------------------------------------------

theorem long_nat {v : Nat} (h : v < 2 ^ 63) : long v = .ok v :=
  if_pos (by omega)

/-- The call returns `v`, with the prefix in `s` and these paths passed to `stat`. -/
def Walked (m : Nat → Except Fault (UInt32 × Walk)) (pre : List UInt8) (w : Walk) (v : Nat)
    (paths : List (List UInt8)) : Prop :=
  ∃ r w', Yields m (r, w') ∧ r.toNat = v ∧ TextAt cap w'.s 0 pre ∧ w'.statted = w.statted ++ paths

/-- The visit ends with the sum `v` and something behind the prefix in `s`. -/
def Visited (m : Nat → Except Fault (Int × Walk)) (pre : List UInt8) (w : Walk) (v : Nat)
    (paths : List (List UInt8)) : Prop :=
  ∃ w' tail, Yields m ((v : Int), w') ∧ tail ≠ [] ∧ TextAt cap w'.s 0 (pre ++ tail) ∧
    w'.statted = w.statted ++ paths

/-- One iteration, and the ones after it. -/
theorem readLoop_cons {here later : List (List UInt8)} {v v' : Nat} (htext : TextAt cap w.s 0 pre) (hname : 0 ∉ name)
    (hfit : (pre ++ name).length + 2 ≤ cap)
    (hvisit : ∀ w', TextAt cap w'.s 0 (pre ++ name) → Visited
      (fun n => visit fs (dfs fs junk n) name pre.length ((fs.stat (pre ++ name)).getD st) sz w') pre w' v here)
    (hrest : ∀ st' w', TextAt cap w'.s 0 pre →
      Walked (fun n => readLoop fs junk n dir pre.length st' v w') pre w' v' later) :
    Walked (fun n => readLoop fs junk n (name :: dir) pre.length st sz w) pre w v'
      ((pre ++ name) :: (here ++ later)) := by
  obtain ⟨s, hcat, hs⟩ := strcat_text htext hname (by omega)
  obtain ⟨w₁, tail, ⟨k₁, hrun⟩, htail, hw₁, hhere⟩ := hvisit { w with s := s, statted := w.statted ++ [pre ++ name] } hs
  obtain ⟨hstore, hcut⟩ := cut_back hw₁ htail
  obtain ⟨r, w₂, ⟨k₂, hgo⟩, hr, hw₂, hlater⟩ := hrest ((fs.stat (pre ++ name)).getD st)
    { w₁ with s := Function.update w₁.s pre.length 0 } hcut
  refine ⟨r, w₂, ⟨max k₁ k₂ + 1, fun n hn => ?_⟩, hr, hw₂, ?_⟩
  · obtain ⟨n, rfl⟩ := Nat.exists_eq_add_of_le' (Nat.le_of_add_left_le hn)
    have hvisited := hrun n (by omega)
    unfold dfs at hvisited
    simp only [readLoop, hcat, cstring_text hs, hvisited, hstore, hgo n (by omega), ok_bind]
  · rw [hlater, hhere]
    simp

theorem visit_special (hspecial : name = ascii ".." ∨ name = ascii ".") (hs : TextAt cap w.s 0 (pre ++ name)) (v : Nat) :
    Visited (fun n => visit fs (dfs fs junk n) name pre.length st v w) pre w v [] := by
  have hne : name ≠ [] := by
    rintro rfl
    exact absurd hspecial (by decide)
  exact ⟨w, name, ⟨0, fun _ _ => if_pos hspecial⟩, hne, hs, by rw [List.append_nil]⟩

theorem visit_file (hname : Named name) (hs : TextAt cap w.s 0 (pre ++ name)) {blocks v : Nat}
    (hv : v + 512 * blocks < 2 ^ 63) :
    Visited (fun n => visit fs (dfs fs junk n) name pre.length ⟨false, true, blocks⟩ v w) pre w (v + 512 * blocks) [] := by
  refine ⟨w, name, ⟨0, fun _ _ => ?_⟩, hname.nonempty, hs, by rw [List.append_nil]⟩
  have hcast : (blocks : Int) * 512 = (512 * blocks : Nat) := by omega
  have hbytes : long ((blocks : Int) * 512) = .ok ((512 * blocks : Nat) : Int) := by
    rw [hcast, long_nat (by omega)]
  have hsum : long ((v : Int) + (512 * blocks : Nat)) = .ok ((v + 512 * blocks : Nat) : Int) := by
    rw [← Int.natCast_add, long_nat hv]
  dsimp only
  unfold visit
  rw [if_neg hname.ordinary]
  simp only [Bool.false_eq_true, if_false, if_true, hbytes, hsum, ok_bind, pure_eq_ok]

theorem visit_dir (hname : Named name) (hs : TextAt cap w.s 0 (pre ++ name)) (hfit : (pre ++ name).length + 2 ≤ cap)
    {blocks : Int} {child : List (List UInt8)} (hopen : fs.opendir (pre ++ name) = some child) {u v : Nat}
    {paths : List (List UInt8)}
    (hdfs : ∀ w', TextAt cap w'.s 0 (pre ++ name ++ [47]) →
      Walked (fun n => dfs fs junk n child (pre ++ name ++ [47]).length w') (pre ++ name ++ [47]) w' u paths)
    (hv : v + u < 2 ^ 63) :
    Visited (fun n => visit fs (dfs fs junk n) name pre.length ⟨true, false, blocks⟩ v w) pre w (v + u) paths := by
  obtain ⟨s₁, s, hslash, hstop, hs'⟩ := append_slash hs hfit
  obtain ⟨r, w', ⟨k, hrun⟩, hr, hw', hstatted⟩ := hdfs { w with s := s } hs'
  rw [List.append_assoc] at hw'
  refine ⟨w', name ++ [47], ⟨k, fun n hn => ?_⟩, by simp, hw', hstatted⟩
  have hlen : (pre ++ name ++ [47]).length = pre.length + name.length + 1 := by simp [Nat.add_assoc]
  have hcall := hrun n hn
  rw [hlen] at hcall
  have hsum : long ((v : Int) + r.toNat) = .ok ((v + u : Nat) : Int) := by
    rw [hr, ← Int.natCast_add, long_nat hv]
  dsimp only
  unfold visit
  rw [if_neg hname.ordinary]
  simp only [if_true, cstring_text hs, ok_bind, hopen, hslash, hstop, hcall, hsum, pure_eq_ok]

theorem toNat_ofInt (v : Nat) : (UInt32.ofInt v).toNat = v % 2 ^ 32 := by
  have hcast : UInt32.ofInt v = UInt32.ofNat (v % 2 ^ 32) := rfl
  rw [hcast, UInt32.toNat_ofNat', Nat.mod_mod]

/-- The walk of a directory: the paths in `stat`, the buffer as it was, and the sum as far as
    an `unsigned int` holds it. -/
theorem readLoop_listing (hat : l.At fs pre) (hfits : l.Fits pre) (htext : TextAt cap w.s 0 pre) (st : Status)
    {sz : Nat} (hsz : sz + l.total < 2 ^ 63) :
    Walked (fun n => readLoop fs junk n l.names pre.length st sz w) pre w ((sz + l.total) % 2 ^ 32) (l.paths pre) := by
  induction l generalizing pre w sz st with
  | nil =>
    refine ⟨UInt32.ofInt sz, { w with printed := w.printed ++ [((sz : Int).tdiv 1024, pre)] },
      .of_add 1 fun n => ?_, toNat_ofInt sz, htext, ?_⟩
    · simp only [Listing.names, readLoop, cstring_text htext, ok_bind, pure_eq_ok]
    · rw [Listing.paths, List.append_nil]
  | special name rest ih =>
    obtain ⟨hname, hat⟩ := hat
    obtain ⟨hfit, hfits⟩ := List.forall_mem_cons.mp hfits
    have hnul : 0 ∉ name := by rcases hname with rfl | rfl <;> decide
    exact readLoop_cons htext hnul hfit (fun w' hs => visit_special hname hs sz)
      fun st' w' hw' => ih hat hfits hw' st' hsz
  | file name blocks rest ih =>
    obtain ⟨hname, hstat, hat⟩ := hat
    obtain ⟨hfit, hfits⟩ := List.forall_mem_cons.mp hfits
    simp only [Listing.total] at hsz
    have hsum : sz + 512 * blocks + rest.total < 2 ^ 63 := by omega
    rw [Listing.total, ← Nat.add_assoc]
    have hvisit : ∀ w', TextAt cap w'.s 0 (pre ++ name) → Visited
        (fun n => visit fs (dfs fs junk n) name pre.length ((fs.stat (pre ++ name)).getD st) sz w') pre w'
          (sz + 512 * blocks) [] := by
      intro w' hs
      rw [hstat]
      exact visit_file hname hs (by omega)
    exact readLoop_cons htext hname.nulFree hfit hvisit fun st' w' hw' => ih hat hfits hw' st' hsum
  | dir name children rest ihc ih =>
    obtain ⟨hname, ⟨blocks, hstat⟩, hopen, hchildren, hat⟩ := hat
    obtain ⟨hfit, hfits⟩ := List.forall_mem_cons.mp hfits
    obtain ⟨hfitsc, hfits⟩ := List.forall_mem_append.mp hfits
    simp only [Listing.total] at hsz
    have hmod := Nat.mod_le (4096 + children.total) (2 ^ 32)
    -- the sum below is cut to 32 bits, the one here is not
    have hsum : sz + (4096 + children.total) % 2 ^ 32 + rest.total < 2 ^ 63 := by omega
    have htotal : (sz + (4096 + children.total + rest.total)) % 2 ^ 32 =
        (sz + (4096 + children.total) % 2 ^ 32 + rest.total) % 2 ^ 32 := by omega
    rw [Listing.total, htotal]
    have hvisit : ∀ w', TextAt cap w'.s 0 (pre ++ name) → Visited
        (fun n => visit fs (dfs fs junk n) name pre.length ((fs.stat (pre ++ name)).getD st) sz w') pre w'
          (sz + (4096 + children.total) % 2 ^ 32) (children.paths (pre ++ name ++ [47])) := by
      intro w' hs
      rw [hstat]
      exact visit_dir hname hs hfit hopen (fun w' hs' => @ihc _ w' hchildren hfitsc hs' junk 4096 (by omega)) (by omega)
    exact readLoop_cons htext hname.nulFree hfit hvisit fun st' w' hw' => ih hat hfits hw' st' hsum

-- ---------------------------------------------------------------------------
-- The root
-- ---------------------------------------------------------------------------

/-- What `Dfs` is to do on the root: look at every path in the tree, leave `s` as it was, and
    return the sum of everything. -/
def Counts (fs : FileSystem) (junk : Status) (root : Listing) (s : Mem) : Prop :=
  ∃ r w, Yields (fun n => dfs fs junk n root.names 2 ⟨s, [], []⟩) (r, w) ∧
    w.statted = root.paths (ascii "./") ∧ TextAt cap w.s 0 (ascii "./") ∧ r.toNat = 4096 + root.total

theorem dfs_root {root : Listing} (hat : root.At fs (ascii "./")) (hfits : root.Fits (ascii "./"))
    (htext : TextAt cap s 0 (ascii "./")) (hlong : 4096 + root.total < 2 ^ 63) :
    ∃ r w, Yields (fun n => dfs fs junk n root.names 2 ⟨s, [], []⟩) (r, w) ∧
      w.statted = root.paths (ascii "./") ∧ TextAt cap w.s 0 (ascii "./") ∧
      r.toNat = (4096 + root.total) % 2 ^ 32 := by
  obtain ⟨r, w, hrun, hr, hs, hstatted⟩ := @readLoop_listing fs junk (ascii "./") ⟨s, [], []⟩ root hat hfits htext junk
    4096 hlong
  exact ⟨r, w, hrun, hstatted, hs, hr⟩

/-- The call on the root returns the sum of the tree exactly if it is below `2 ^ 32`. -/
theorem dfs_counts_iff {root : Listing} (hat : root.At fs (ascii "./")) (hfits : root.Fits (ascii "./"))
    (htext : TextAt cap s 0 (ascii "./")) (junk : Status) :
    Counts fs junk root s ↔ 4096 + root.total < 2 ^ 32 := by
  constructor
  · rintro ⟨r, w, -, -, -, hr⟩
    rw [← hr]
    exact r.toNat_lt
  · intro hlt
    obtain ⟨r, w, hrun, hstatted, hs, hr⟩ := dfs_root hat hfits htext (by omega)
    exact ⟨r, w, hrun, hstatted, hs, hr.trans (Nat.mod_eq_of_lt hlt)⟩

theorem rootPath_text : TextAt cap rootPath 0 (ascii "./") where
  bound := by decide
  get := by decide
  nulFree := by decide
  stop := by decide

/-- A directory with a file in it and a directory `d`, where a file is, too. -/
def nested : FileSystem where
  stat path := if path = ascii "./f" ∨ path = ascii "./d/f" then some ⟨false, true, 8⟩ else some ⟨true, false, 8⟩
  opendir path := if path = ascii "./d" then some [ascii ".", ascii "..", ascii "f"] else none

def nestedRoot : Listing :=
  .special (ascii ".") (.special (ascii "..")
    (.dir (ascii "d") (.special (ascii ".") (.special (ascii "..") (.file (ascii "f") 8 .nil)))
      (.file (ascii "f") 8 .nil)))

theorem nestedRoot_at : nestedRoot.At nested (ascii "./") := by
  have hfile : Named (ascii "f") := ⟨by decide, by decide, by decide⟩
  exact ⟨.inr rfl, .inl rfl, ⟨by decide, by decide, by decide⟩, ⟨8, rfl⟩, rfl,
    ⟨.inr rfl, .inl rfl, hfile, rfl, trivial⟩, hfile, rfl, trivial⟩

theorem nestedRoot_fits : nestedRoot.Fits (ascii "./") :=
  (by decide : ∀ path ∈ [ascii "./.", ascii "./..", ascii "./d", ascii "./d/.", ascii "./d/..", ascii "./d/f",
    ascii "./f"], path.length + 2 ≤ cap)

/-- The call on the directory below is part of the sum. -/
theorem dfs_counts_iff_nested : Counts nested ⟨false, false, 0⟩ nestedRoot rootPath :=
  (dfs_counts_iff nestedRoot_at nestedRoot_fits rootPath_text _).mpr (by decide)

/-- A directory with one file in it. -/
def oneFile (blocks : Nat) : FileSystem where
  stat path := if path = ascii "./f" then some ⟨false, true, blocks⟩ else some ⟨true, false, 8⟩
  opendir _ := none

def oneFileRoot (blocks : Nat) : Listing :=
  .special (ascii ".") (.special (ascii "..") (.file (ascii "f") blocks .nil))

theorem oneFileRoot_at (blocks : Nat) : (oneFileRoot blocks).At (oneFile blocks) (ascii "./") :=
  ⟨.inr rfl, .inl rfl, ⟨by decide, by decide, by decide⟩, rfl, trivial⟩

theorem oneFileRoot_fits (blocks : Nat) : (oneFileRoot blocks).Fits (ascii "./") :=
  (by decide : ∀ path ∈ [ascii "./.", ascii "./..", ascii "./f"], path.length + 2 ≤ cap)

/-- A file of 4 GiB is not counted at all. -/
theorem big_file_lost :
    ¬ Counts (oneFile 8388608) ⟨false, false, 0⟩ (oneFileRoot 8388608) rootPath ∧
      ∃ r w, Yields (fun n => dfs (oneFile 8388608) ⟨false, false, 0⟩ n (oneFileRoot 8388608).names 2 ⟨rootPath, [], []⟩)
        (r, w) ∧ r.toNat = 4096 := by
  constructor
  · rw [dfs_counts_iff (oneFileRoot_at 8388608) (oneFileRoot_fits 8388608) rootPath_text]
    decide
  · obtain ⟨r, w, hrun, -, -, hr⟩ := @dfs_root (oneFile 8388608) ⟨false, false, 0⟩ rootPath _
      (oneFileRoot_at 8388608) (oneFileRoot_fits 8388608) rootPath_text (by decide)
    exact ⟨r, w, hrun, hr⟩

end Du

end Scratch
