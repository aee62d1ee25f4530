-- SUMMARY: Which file a request can name: the lookups of a run, and the exact URLs whose path stays inside the document root.
import LinuxLearning.HttpConn.Safety
import LinuxLearning.HttpConn.Frame
import LinuxLearning.Common.LexicalPath

/-!
# The document root

`do_request` puts the URL behind `doc_root` and hands the result to `stat` and `open`.
Nothing between `parse_request_line` and there looks at the components of the URL, so
what decides is the URL alone: how far it climbs, and what it names afterwards.
-/

namespace Http

open Memory CString

/-- The components of a path. Empty ones and `.` lead nowhere. -/
def components (path : List UInt8) : List (Component (List UInt8)) :=
  (path.splitOn 47).filterMap fun s =>
    if s = [] ∨ s = ascii "." then none else if s = ascii ".." then some .up else some (.name s)

/-- The names on the way to `doc_root`. -/
def docNames : List (List UInt8) := [ascii "var", ascii "www", ascii "html"]

/-- The path lies inside the document root once it is normalised. -/
def InsideRoot (path : List UInt8) : Prop :=
  docNames <+: Component.walk [] (components path)

instance : DecidablePred InsideRoot := fun _ => inferInstanceAs (Decidable (_ <+: _))

/-- The URL, as far as it is copied, does not climb, or names the way back as far as
    it has climbed. -/
def Confined (p : List UInt8) : Prop :=
  docNames.drop (docNames.length - (Component.relative (components (p.take 186))).ups) <+:
    (Component.relative (components (p.take 186))).names

instance : DecidablePred Confined := fun _ => inferInstanceAs (Decidable (_ <+: _))

/-- An accepted URL, or what is left of it behind a NUL. -/
def Absolute (p : List UInt8) : Prop :=
  p = [] ∨ p.head? = some 47

theorem components_pathOf {p : List UInt8} (hp : Absolute p) :
    components (HttpConn.pathOf p) = docNames.map .name ++ components (p.take 186) := by
  have hroot : components docRoot = docNames.map .name := by decide
  rcases hp with rfl | hp
  · exact hroot.trans (List.append_nil _).symm
  · obtain ⟨r, rfl⟩ : ∃ r, p = 47 :: r := by
      cases p with
      | nil => cases hp
      | cons b r => exact ⟨r, by rw [List.head?_cons] at hp; cases hp; rfl⟩
    have hempty : components (47 :: r.take 185) = components (r.take 185) := by
      simp [components, List.splitOn_cons_eq_if_modifyHead]
    rw [HttpConn.pathOf, List.take_succ_cons, hempty, ← hroot]
    simp only [components]
    rw [List.splitOn_append_cons_self, List.filterMap_append]

/-- The looked-up path is inside exactly when the URL is confined. -/
theorem insideRoot_pathOf {p : List UInt8} (hp : Absolute p) : InsideRoot (HttpConn.pathOf p) ↔ Confined p := by
  have hroot : Component.walk [] (docNames.map Component.name) = docNames := by decide
  rw [InsideRoot, components_pathOf hp, Component.walk_append, hroot, Component.prefix_walk_iff, Confined]

namespace HttpConn

variable {fs : FileSystem} {c c' d e : HttpConn}

/-! ## The lookups of a run -/

/-- The path that `do_request` hands to `stat` and `open`. -/
def lookup (c : HttpConn) : Except Fault (List UInt8) := do
  let c ← c.resolve
  cstring filenameLen c.realFile 0

/-- `do_request` looks up this path and no other. -/
theorem doRequest_lookup {path : List UInt8} (h : c.lookup = .ok path) (fs : FileSystem) :
    ∃ d, c.resolve = .ok d ∧ c.doRequest fs = .ok (openStep fs d path) := by
  cases hd : c.resolve with
  | error f => rw [lookup, hd] at h; cases h
  | ok d =>
    rw [lookup, hd] at h
    refine ⟨d, rfl, ?_⟩
    have hpath : cstring filenameLen d.realFile 0 = .ok path := h
    simp only [doRequest, hd, ok_bind, hpath, openStep]
    cases fs.stat path with
    | none => rfl
    | some st => cases hr : st.iroth <;> cases hdir : st.isdir <;> simp [hr, hdir]

/-- The object that the body of the main loop calls `do_request` on. -/
def request (d : HttpConn) : Option HttpConn :=
  match d.checkState with
  | .requestLine => none
  | .header =>
    match d.nextLine.parseHeaders d.startLine with
    | .ok (c, .getRequest) => some c
    | _ => none
  | .content =>
    match d.nextLine.parseContent d.startLine with
    | .ok (c, .getRequest) => some c
    | _ => none

/-- The objects that `do_request` is called on while `ds` is delivered. -/
def requests (fs : FileSystem) (c : HttpConn) (ds : List (List Recv)) : List HttpConn :=
  (feedBodies fs c ds).filterMap request

theorem loopBody_of_request (h : d.request = some e) (fs : FileSystem) :
    d.loopBody fs = (do
      let (c, ret) ← e.doRequest fs
      return (c, .ret ret)) := by
  unfold request at h
  unfold loopBody
  cases hst : d.checkState with
  | requestLine => simp [hst] at h
  | header =>
    simp only [hst] at h
    split at h
    · rename_i hrun
      cases h
      simp only [onHeader, hrun, ok_bind]
      rfl
    · cases h
  | content =>
    simp only [hst] at h
    split at h
    · rename_i hrun
      cases h
      simp only [onContent, hrun, ok_bind]
      rfl
    · cases h

/-! ## What `m_url` points to -/

/-- The invariant, with the byte that an accepted URL begins with. -/
structure Routed (c : HttpConn) : Prop extends Inv c where
  slash : c.checkState ≠ .requestLine →
    ∃ u, c.url = some u ∧ u < c.readIdx ∧ (c.readBuf u = 47 ∨ c.readBuf u = 0)

/-- Zeroing bytes keeps what is known about the URL. -/
theorem Routed.ofZeroed (h : c.Routed) (hinv : c'.Inv) (hst : c.checkState ≠ .requestLine)
    (hurl : c'.url = c.url) (hrd : c'.readIdx = c.readIdx) {s t : Nat}
    (hz : ZeroedIn s t c.readBuf c'.readBuf) : c'.Routed := by
  refine ⟨hinv, fun _ => ?_⟩
  obtain ⟨u, hu, hlt, hb⟩ := h.slash hst
  refine ⟨u, hurl.trans hu, hrd ▸ hlt, ?_⟩
  rcases hz u with hk | ⟨-, -, hk⟩
  · rwa [hk]
  · exact .inr hk

theorem Routed.append (h : c.Routed) (bs : List UInt8) (hle : c.readIdx + bs.length ≤ readBufferSize) :
    (c.append bs).Routed := by
  refine ⟨h.toInv.append bs hle, fun hst => ?_⟩
  obtain ⟨u, hu, hlt, hb⟩ := h.slash hst
  refine ⟨u, hu, lt_of_lt_of_le hlt (Nat.le_add_right _ _), ?_⟩
  rwa [show (c.append bs).readBuf u = c.readBuf u from blit_of_lt _ _ hlt]

theorem read_routed (h : c.Routed) (rs : List Recv) : (c.read rs).1.Routed := by
  obtain ⟨bs, hbs, hle⟩ := read_append c rs h.read_le
  rw [hbs]
  exact h.append bs hle

theorem endLine_zeroed (c : HttpConn) (e : Nat) : ZeroedIn e (e + 2) c.readBuf (c.endLine e).readBuf :=
  (ZeroedIn.update (le_refl e) (by omega)).trans (.update (by omega) (by omega))

/-- The condition of the loop finishes a line at most. -/
theorem loopCond_routed (h : c.Routed) {status status' : LineStatus}
    (hrun : c.loopCond status = .ok (d, status')) : d.Routed ∧ (status' = .lineOk → d.AtBody) := by
  obtain ⟨d', status'', hrun', hstep⟩ := loopCond_ok h.toInv status
  cases hrun.symm.trans hrun'
  refine ⟨⟨hstep.inv, fun hst => ?_⟩, hstep.body⟩
  have hsame : d.url = c.url ∧ ∃ s t, ZeroedIn s t c.readBuf d.readBuf := by
    unfold loopCond at hrun
    split at hrun
    · cases hrun
      exact ⟨rfl, 0, 0, .refl _ _ _⟩
    · rw [parseLine_spec h.toScanning] at hrun
      cases hf : front c.pending <;> rw [hf] at hrun <;> cases hrun
      · exact ⟨rfl, _, _, endLine_zeroed c _⟩
      · exact ⟨rfl, 0, 0, .refl _ _ _⟩
      · exact ⟨rfl, 0, 0, .refl _ _ _⟩
  obtain ⟨hurl, s, t, hz⟩ := hsame
  exact (h.ofZeroed hstep.inv (hstep.state ▸ hst) hurl hstep.readIdx hz).slash hst

theorem Routed.nextLine (h : c.Routed) : c.nextLine.Routed :=
  ⟨h.toInv.nextLine, h.slash⟩

theorem requestTarget_head {l p : List UInt8} (h : requestTarget l = some p) : p.head? = some 47 := by
  unfold requestTarget at h
  dsimp only at h
  split at h
  · unfold urlTarget at h
    dsimp only at h
    split at h
    · rename_i hurl
      cases h
      exact hurl.2.2
    · cases h
  · cases h

/-- An accepted URL begins with a slash. -/
theorem requestLineStep_routed (h : c.Routed) (hst : c.checkState = .requestLine) {s : Nat} {l : List UInt8}
    (hl : LineAt c.readBuf s l) (hlt : s + l.length < c.startLine) :
    (requestLineStep c s (cstr l)).1.Routed := by
  obtain ⟨hbody, -⟩ := requestLineStep_ok h.toInv hst hl hlt
  obtain ⟨-, hstep⟩ := requestLineStep_text (c := c) hl.text
  refine ⟨hbody.inv, fun hne => ?_⟩
  cases ht : requestTarget (cstr l) with
  | none => exact absurd ((hstep.reject ht).trans hst) hne
  | some p =>
    obtain ⟨-, u, hu, -, hend, htext⟩ := hstep.accept p ht
    have hhead := requestTarget_head ht
    have hle := cstr_length_le l
    have horder := h.toInv.ordered
    refine ⟨u, hu, by rw [hbody.readIdx]; unfold Ordered at horder; omega, .inl ?_⟩
    cases p with
    | nil => cases hhead
    | cons b p =>
      rw [List.head?_cons] at hhead
      cases hhead
      exact htext.head

theorem headerStep_frame (c : HttpConn) (s : Nat) (l : List UInt8) :
    (headerStep c s l).1.url = c.url ∧ (headerStep c s l).1.readBuf = c.readBuf := by
  unfold headerStep
  repeat' split
  all_goals exact ⟨rfl, rfl⟩

theorem headerStep_routed (h : c.Routed) (hst : c.checkState = .header) (s : Nat) (l : List UInt8) :
    (headerStep c s l).1.Routed ∧ (headerStep c s l).1.checkState ≠ .requestLine := by
  obtain ⟨hbody, hne⟩ := headerStep_ok h.toInv hst s l
  obtain ⟨hurl, hbuf⟩ := headerStep_frame c s l
  have hz : ZeroedIn 0 0 c.readBuf (headerStep c s l).1.readBuf := by
    rw [hbuf]
    exact .refl _ _ _
  exact ⟨h.ofZeroed hbody.inv (by rw [hst]; decide) hurl hbody.readIdx hz, hne⟩

/-- `parse_content` zeroes one byte at most. -/
theorem parseContent_routed (h : c.Routed) (hst : c.checkState = .content) {t : Nat} (ht : t ≤ c.checkedIdx)
    {code : HttpCode} (hrun : c.parseContent t = .ok (c', code)) :
    c'.Routed ∧ c'.checkState = .content := by
  obtain ⟨hmax, hfit⟩ := parseContent_fits hrun
  obtain ⟨d, hd, hbody, heq⟩ := parseContent_ok h.toInv ht hmax hfit
  cases hd.symm.trans hrun
  have hcont : c'.checkState = .content := by
    rw [heq]
    exact hst
  have hsame : Ensures (c.parseContent t) fun r => r.1.url = c.url ∧
      ∃ s t, ZeroedIn s t c.readBuf r.1.readBuf := by
    refine .bind_any fun stop => .ite ?_ (.pure ⟨rfl, 0, 0, .refl _ _ _⟩)
    have hstore : Ensures (c.storeBuf (t + c.contentLength) 0) fun d => d.url = c.url ∧
        ∃ s t, ZeroedIn s t c.readBuf d.readBuf := by
      have hst : Ensures (store readBufferSize c.readBuf (t + c.contentLength) 0) fun m =>
          ∃ s t, ZeroedIn s t c.readBuf m := by
        unfold store
        exact .ite (.pure ⟨_, _, .update (le_refl _) (Nat.lt_succ_self _)⟩) .throw
      exact hst.bind fun m hm => .pure ⟨rfl, hm⟩
    exact hstore.bind fun d hd => .pure hd
  obtain ⟨hurl, s, t, hz⟩ := hsame _ hrun
  exact ⟨h.ofZeroed hbody.inv (by rw [hst]; decide) hurl hbody.readIdx hz, hcont⟩

/-- `do_request` is called with what the body started with. -/
theorem request_routed (h : d.Routed) (hbody : d.AtBody) (hreq : d.request = some e) :
    e.Routed ∧ e.checkState ≠ .requestLine := by
  unfold request at hreq
  cases hst : d.checkState with
  | requestLine => simp [hst] at hreq
  | header =>
    rcases hbody with hc | ⟨l, hl, -⟩
    · rw [hst] at hc; cases hc
    have hl' : LineAt d.nextLine.readBuf d.startLine l := hl
    simp only [hst, parseHeaders_line hl'] at hreq
    have hstep := headerStep_routed h.nextLine hst d.startLine l
    generalize headerStep d.nextLine d.startLine l = r at *
    split at hreq
    · rename_i heq
      cases heq
      cases hreq
      exact hstep
    · cases hreq
  | content =>
    simp only [hst] at hreq
    split at hreq
    · rename_i hrun
      cases hreq
      obtain ⟨hr, hc⟩ := parseContent_routed h.nextLine hst h.start_le hrun
      exact ⟨hr, by rw [hc]; decide⟩
    · cases hreq

theorem doRequest_routed (h : e.Routed) (hst : e.checkState ≠ .requestLine) {code : HttpCode}
    (hrun : e.doRequest fs = .ok (c', code)) : c'.Routed := by
  obtain ⟨d, code', hd, -, hbody⟩ := doRequest_ok fs h.toInv hst
  cases hd.symm.trans hrun
  obtain ⟨m, st, a, hsame⟩ := doRequest_same fs _ hrun
  have hurl : c'.url = e.url := by rw [show c' = _ from hsame]
  have hbuf : c'.readBuf = e.readBuf := by rw [show c' = _ from hsame]
  have hz : ZeroedIn 0 0 e.readBuf c'.readBuf := by
    rw [hbuf]
    exact .refl _ _ _
  exact h.ofZeroed hbody.inv hst hurl hbody.readIdx hz

theorem loopBody_routed (h : d.Routed) (hbody : d.AtBody) {next : Next}
    (hrun : d.loopBody fs = .ok (c', next)) : c'.Routed := by
  cases hreq : d.request with
  | some e =>
    obtain ⟨he, hst⟩ := request_routed h hbody hreq
    rw [loopBody_of_request hreq] at hrun
    cases hdo : e.doRequest fs with
    | error f => rw [hdo] at hrun; cases hrun
    | ok r =>
      rw [hdo] at hrun
      cases hrun
      exact doRequest_routed he hst hdo
  | none =>
    have hline : d.checkState ≠ .content → ∃ l, LineAt d.nextLine.readBuf d.startLine l ∧
        d.startLine + l.length < d.nextLine.startLine := by
      intro hne
      rcases hbody with hc | ⟨l, hl, hck⟩
      · exact absurd hc hne
      · exact ⟨l, hl, by simp only [HttpConn.nextLine]; omega⟩
    unfold loopBody at hrun
    cases hst : d.checkState with
    | requestLine =>
      obtain ⟨l, hl, hlt⟩ := hline (by rw [hst]; decide)
      simp only [hst, onRequestLine_line hl] at hrun
      cases hrun
      exact requestLineStep_routed h.nextLine hst hl hlt
    | header =>
      obtain ⟨l, hl, -⟩ := hline (by rw [hst]; decide)
      have hstep := (headerStep_routed h.nextLine hst d.startLine l).1
      simp only [request, hst, parseHeaders_line hl] at hreq
      simp only [hst, onHeader, parseHeaders_line hl, ok_bind] at hrun
      generalize headerStep d.nextLine d.startLine l = r at *
      obtain ⟨c₁, code⟩ := r
      have hcode : code ≠ .getRequest := by
        rintro rfl
        cases hreq
      simp only [if_neg hcode] at hrun
      split at hrun <;> (cases hrun; exact hstep)
    | content =>
      simp only [request, hst] at hreq
      simp only [hst, onContent] at hrun
      cases hpc : d.nextLine.parseContent d.startLine with
      | error f => rw [hpc] at hrun; cases hrun
      | ok r =>
        obtain ⟨c₁, code⟩ := r
        have hcode : code ≠ .getRequest := by
          rintro rfl
          rw [hpc] at hreq
          cases hreq
        simp only [hpc, ok_bind, if_neg hcode] at hrun
        cases hrun
        exact (parseContent_routed h.nextLine hst h.start_le hpc).1

/-! ## Runs -/

theorem readLoop_routed (fs : FileSystem) (n : Nat) (status : LineStatus) (h : c.Routed) :
    (∀ d ∈ bodies fs n c status, d.Routed ∧ d.AtBody) ∧
      ∀ c' code, readLoop fs n c status = .ok (c', code) → c'.Routed := by
  have hloops := readLoop_loops fs n c status
  generalize bodies fs n c status = ds, readLoop fs n c status = r at hloops
  induction hloops with
  | fuel _ _ => exact ⟨by simp, by rintro _ _ ⟨⟩⟩
  | cond _ => exact ⟨by simp, by rintro _ _ ⟨⟩⟩
  | stop hcond _ =>
    refine ⟨by simp, ?_⟩
    rintro _ _ ⟨⟩
    exact (loopCond_routed h hcond).1
  | fault hcond _ =>
    obtain ⟨hd, hat⟩ := loopCond_routed h hcond
    exact ⟨List.forall_mem_singleton.mpr ⟨hd, hat rfl⟩, by rintro _ _ ⟨⟩⟩
  | ret hcond hbody =>
    obtain ⟨hd, hat⟩ := loopCond_routed h hcond
    refine ⟨List.forall_mem_singleton.mpr ⟨hd, hat rfl⟩, ?_⟩
    rintro _ _ ⟨⟩
    exact loopBody_routed hd (hat rfl) hbody
  | next hcond hbody _ ih =>
    obtain ⟨hd, hat⟩ := loopCond_routed h hcond
    obtain ⟨hall, hend⟩ := ih (loopBody_routed hd (hat rfl) hbody)
    exact ⟨List.forall_mem_cons.mpr ⟨⟨hd, hat rfl⟩, hall⟩, hend⟩

theorem feedBodies_routed {ds : List (List Recv)} (h : c.Routed) :
    ∀ d ∈ feedBodies fs c ds, d.Routed ∧ d.AtBody := by
  induction ds generalizing c with
  | nil => simp [feedBodies]
  | cons rs ds ih =>
    have hread := read_routed h rs
    unfold feedBodies
    generalize c.read rs = r at *
    obtain ⟨c₁, ok⟩ := r
    cases ok with
    | false => simp
    | true =>
      obtain ⟨hall, hend⟩ := readLoop_routed fs readFuel .lineOk hread
      simp only [List.forall_mem_append]
      refine ⟨hall, ?_⟩
      cases hrun : c₁.processRead fs with
      | error f => simp
      | ok r => exact ih (hend r.1 r.2 hrun)

/-- `m_url` points to the string `p`. -/
def UrlIs (c : HttpConn) (p : List UInt8) : Prop :=
  ∃ u, c.url = some u ∧ TextAt readBufferSize c.readBuf u p

/-- What a call of `do_request` looks up. -/
theorem Routed.lookup (h : e.Routed) (hst : e.checkState ≠ .requestLine) :
    ∃ p, e.UrlIs p ∧ Absolute p ∧ e.lookup = .ok (pathOf p) := by
  obtain ⟨u, hu, hlt, hb⟩ := h.slash hst
  obtain ⟨u', t, hu', hut, ht, h0⟩ := h.url hst
  obtain rfl : u = u' := Option.some.inj (hu.symm.trans hu')
  have hrd := h.read_le
  obtain ⟨p, hp, -⟩ := @TextAt.exists_of_nul readBufferSize _ _ _ hut (by omega) h0
  refine ⟨p, ⟨u, hu, hp⟩, ?_, ?_⟩
  · cases p with
    | nil => exact .inl rfl
    | cons b p =>
      have hhead := hp.head
      rcases hb with hb | hb
      · exact .inr (by rw [List.head?_cons, ← hhead, hb])
      · have hnul := hp.nulFree
        rw [← hhead, hb] at hnul
        exact absurd List.mem_cons_self hnul
  · rw [HttpConn.lookup, resolve_text hu hp, ok_bind]
    exact cstring_text (realFileOf_text h.realFile hp.nulFree)

/-- Every call of `do_request` looks up a file inside the document root exactly when
    the URL does not climb out of it for good. -/
theorem lookup_inside_iff (fs : FileSystem) (c : HttpConn) (ds : List (List Recv)) {e : HttpConn}
    (he : e ∈ requests fs c.init ds) :
    ∃ p path, e.UrlIs p ∧ e.lookup = .ok path ∧ (InsideRoot path ↔ Confined p) := by
  obtain ⟨d, hd, hreq⟩ := List.mem_filterMap.mp he
  have hinit : c.init.Routed := ⟨init_inv c, fun h => absurd rfl h⟩
  obtain ⟨hrouted, hbody⟩ := feedBodies_routed hinit d hd
  obtain ⟨her, hst⟩ := request_routed hrouted hbody hreq
  obtain ⟨p, hurl, habs, hpath⟩ := her.lookup hst
  exact ⟨p, pathOf p, hurl, hpath, insideRoot_pathOf habs⟩

/-- A request for `/../html/x`, which leaves the root and comes back. -/
theorem lookup_inside_reenter :
    ∃ e ∈ requests ⟨fun _ => none, fun _ _ => -1⟩ blank.init
        [[.data (ascii "GET /../html/x HTTP/1.1\r\n")], [.data (ascii "\r\n")]],
      ∃ p path, e.UrlIs p ∧ e.lookup = .ok path ∧ (InsideRoot path ↔ Confined p) := by
  have hone : (requests ⟨fun _ => none, fun _ _ => -1⟩ blank.init
      [[.data (ascii "GET /../html/x HTTP/1.1\r\n")], [.data (ascii "\r\n")]]).length = 1 := by
    decide +kernel
  obtain ⟨e, he⟩ := List.length_eq_one_iff.mp hone
  have hmem := he ▸ List.mem_singleton_self e
  exact ⟨e, hmem, lookup_inside_iff _ _ _ hmem⟩

/-- Three steps up from the document root lead to the root directory. -/
theorem dotdot_escapes :
    ∃ e ∈ requests ⟨fun _ => none, fun _ _ => -1⟩ blank.init
        [[.data (ascii "GET /../../../etc/passwd HTTP/1.1\r\n\r\n")]],
      ∃ path, e.lookup = .ok path ∧ ¬ InsideRoot path := by
  have hpaths : (requests ⟨fun _ => none, fun _ _ => -1⟩ blank.init
      [[.data (ascii "GET /../../../etc/passwd HTTP/1.1\r\n\r\n")]]).map
        (fun e => match e.lookup with
          | .ok path => some path
          | .error _ => none) = [some (ascii "/var/www/html/../../../etc/passwd")] := by
    decide +kernel
  obtain ⟨e, he, hpath⟩ := List.map_eq_singleton_iff.mp hpaths
  refine ⟨e, he ▸ List.mem_singleton_self e, _, ?_, (by decide : ¬ InsideRoot (ascii "/var/www/html/../../../etc/passwd"))⟩
  split at hpath
  · rename_i path hlook
    cases hpath
    exact hlook
  · cases hpath

end HttpConn

end Http
