-- SUMMARY: Several requests on one connection: what becomes of bytes that arrive together with the end of a request, and when every request is answered.
import LinuxLearning.HttpConn.HeaderLaw
import LinuxLearning.HttpConn.ResponseFraming

/-!
# Pipelined requests

After a response that keeps the connection, `write()` calls `init()`, which empties the
read buffer. Bytes that `read()` took from the socket behind the request are gone then.
A keep-alive connection therefore answers its requests in order exactly when every
request ends where a `read()` ended.
-/

namespace Http

open Memory CString

/-- A GET request without a body that asks to keep the connection. -/
structure KeepAliveGet where
  line : List UInt8
  headers : List (List UInt8)
  wellFormed : WellFormed line headers
  keepAlive : headers.any isKeepAlive
  bodyless : announcedLength headers = 0

namespace KeepAliveGet

def bytes (r : KeepAliveGet) : List UInt8 :=
  requestBytes r.line r.headers

/-- The URL of the request. -/
def target (r : KeepAliveGet) : List UInt8 :=
  (requestTarget r.line).get r.wellFormed.target

theorem requestTarget_eq (r : KeepAliveGet) : requestTarget r.line = some r.target :=
  (Option.some_get _).symm

theorem bytes_ne_nil (r : KeepAliveGet) : r.bytes ≠ [] := by
  simp [bytes, requestBytes]

end KeepAliveGet

namespace HttpConn

variable {fs : FileSystem} {mem : Int → UInt8} {c d : HttpConn} {code : HttpCode}

/-! ## The connection -/

/-- `process()` and `write()` on a request that was read: the responses that went out,
    and the object if the connection stays open. Every `writev` takes all it is given. -/
def turn (mem : Int → UInt8) (c : HttpConn) (code : HttpCode) : List (List UInt8) × Option HttpConn :=
  let (d, ok) := c.processWrite code
  if ok then
    match d.write mem [.sent d.iovLen] with
    | none => ([], none)
    | some r => ([r.sent], if r.ret then some r.conn else none)
  else ([], none)

/-- A connection over what its calls of `read()` take from the socket: the responses
    that go out, and the bytes taken that no parse function has seen. -/
def converse (fs : FileSystem) (mem : Int → UInt8) :
    HttpConn → List (List UInt8) → Except Fault (List (List UInt8) × List UInt8)
  | _, [] => return ([], [])
  | c, p :: ps =>
    match c.read [.data p] with
    | (_, false) => return ([], [])
    | (c, true) => do
      let (c, code) ← c.processRead fs
      if code = .noRequest then converse fs mem c ps
      else
        match turn mem c code with
        | (out, none) => return (out, c.pending)
        | (out, some d) => do
          let (outs, lost) ← converse fs mem d ps
          return (out ++ outs, c.pending ++ lost)

/-- The response to a request for `p` that keeps the connection. -/
def answer (fs : FileSystem) (mem : Int → UInt8) (p : List UInt8) : Option (List UInt8) :=
  let (c, code) := openStep fs { blank with linger := true } (pathOf p)
  let (d, ok) := c.processWrite code
  if ok then some (d.iovBytes mem) else none

/-- The requests are answered in order, and no byte is lost. -/
def Answered (fs : FileSystem) (mem : Int → UInt8) (c : HttpConn) (rs : List KeepAliveGet)
    (ps : List (List UInt8)) : Prop :=
  ∃ outs, converse fs mem c ps = .ok (outs, []) ∧ outs.map some = rs.map fun r => answer fs mem r.target

/-- The pieces fall into groups, one for each request. -/
inductive Aligned : List (List UInt8) → List KeepAliveGet → Prop where
  | nil : Aligned [] []
  | cons {qs ps : List (List UInt8)} {r : KeepAliveGet} {rs : List KeepAliveGet} :
      qs.flatten = r.bytes → Aligned ps rs → Aligned (qs ++ ps) (r :: rs)

/-- The URL names an empty file that the server may read. -/
def NamesEmptyFile (fs : FileSystem) (p : List UInt8) : Prop :=
  ∃ st, fs.stat (pathOf p) = some st ∧ st.iroth ∧ st.isdir = false ∧ st.size = 0

/-! ## One response -/

theorem write_full (h : d.Prepared) (hling : d.linger = true) (mem : Int → UInt8) :
    d.write mem [.sent d.iovLen] = some ⟨d.unmap.init, d.iovBytes mem, some .epollin, true, []⟩ := by
  have hle := h.writeIdx_le
  have hkeep : d.unmap.linger = true := by
    unfold unmap
    split <;> exact hling
  have htake : (d.iovBytes mem).take d.iovLen = d.iovBytes mem := by
    rw [← iovBytes_length d mem, List.take_length]
  rw [write_prepared h, writeLoop, if_pos (by omega), htake]
  simp only [endWrite, hkeep, if_true]

theorem turn_keep (hidx : c.writeIdx = 0) (hling : c.linger = true) (hok : (c.processWrite code).2 = true)
    (mem : Int → UInt8) : ∃ e : HttpConn, turn mem c code = ([(c.processWrite code).1.iovBytes mem], some e.init) := by
  have hprep := processWrite_prepared hidx hok
  have hling' : (c.processWrite code).1.linger = true := by
    obtain ⟨m, k, v, w, n, h⟩ := processWrite_same c code
    rw [h]
    exact hling
  refine ⟨(c.processWrite code).1.unmap, ?_⟩
  simp only [turn, hok, if_true, write_full hprep hling']

/-- The file system alone decides how a lookup ends. -/
theorem openStep_congr (fs : FileSystem) (c d : HttpConn) (path : List UInt8) :
    (openStep fs c path).2 = (openStep fs d path).2 ∧
      ((openStep fs c path).2 = .fileRequest →
        (openStep fs c path).1.fileStat = (openStep fs d path).1.fileStat ∧
          (openStep fs c path).1.fileAddress = (openStep fs d path).1.fileAddress) := by
  unfold openStep
  split
  · exact ⟨rfl, nofun⟩
  · split
    · split
      · exact ⟨rfl, nofun⟩
      · exact ⟨rfl, fun _ => ⟨rfl, rfl⟩⟩
    · exact ⟨rfl, nofun⟩

theorem openStep_keeps (fs : FileSystem) (c : HttpConn) (path : List UInt8) :
    (openStep fs c path).1.linger = c.linger ∧ (openStep fs c path).1.writeIdx = c.writeIdx ∧
      (openStep fs c path).2 ∈ verdicts := by
  unfold openStep
  split
  · exact ⟨rfl, rfl, by simp [verdicts]⟩
  · split
    · split
      · exact ⟨rfl, rfl, by simp [verdicts]⟩
      · exact ⟨rfl, rfl, by simp [verdicts]⟩
    · exact ⟨rfl, rfl, by simp [verdicts]⟩

theorem namesEmptyFile_iff (fs : FileSystem) (c : HttpConn) (p : List UInt8) :
    NamesEmptyFile fs p ↔ (openStep fs c (pathOf p)).2 = .fileRequest ∧
      (openStep fs c (pathOf p)).1.fileStat.size = 0 := by
  unfold NamesEmptyFile openStep
  cases fs.stat (pathOf p) with
  | none => simp
  | some st => cases hr : st.iroth <;> cases hd : st.isdir <;> simp [hr, hd]

/-- The response does not depend on what the object was used for before. -/
theorem turn_answer {p : List UInt8} (hopen : openStep fs d (pathOf p) = (c, code)) (hidx : c.writeIdx = 0)
    (hling : c.linger = true) (mem : Int → UInt8) :
    (NamesEmptyFile fs p ∧ turn mem c code = ([], none) ∧ answer fs mem p = none) ∨
      (¬ NamesEmptyFile fs p ∧ ∃ out e, turn mem c code = ([out], some (init e)) ∧
        answer fs mem p = some out) := by
  have hempty := namesEmptyFile_iff fs d p
  obtain ⟨hcode, hfile⟩ := openStep_congr fs d { blank with linger := true } (pathOf p)
  obtain ⟨-, -, hmem⟩ := openStep_keeps fs d (pathOf p)
  obtain ⟨hling', hidx', -⟩ := openStep_keeps fs { blank with linger := true } (pathOf p)
  simp only [answer]
  generalize openStep fs { blank with linger := true } (pathOf p) = r at *
  obtain ⟨b, code'⟩ := r
  rw [hopen] at hempty hcode hfile hmem
  obtain rfl : code = code' := hcode
  have hfalse : ∀ e : HttpConn, code = .fileRequest → e.fileStat.size = 0 → (e.processWrite code).2 = false := by
    rintro e rfl h0
    rw [processWrite, fileResponse_eq, if_neg (by simpa using h0)]
  by_cases hnames : NamesEmptyFile fs p
  · obtain ⟨hf, h0⟩ := hempty.mp hnames
    have hc := hfalse c hf h0
    have hb := hfalse b hf ((congrArg Stat.size (hfile hf).1).symm.trans h0)
    exact .inl ⟨hnames, by simp [turn, hc], by simp [hb]⟩
  · have hne : code = .fileRequest → c.fileStat.size ≠ 0 := fun hf h0 => hnames (hempty.mpr ⟨hf, h0⟩)
    have hne' : code = .fileRequest → b.fileStat.size ≠ 0 :=
      fun hf h0 => hne hf ((congrArg Stat.size (hfile hf).1).trans h0)
    obtain ⟨hok, hbytes⟩ := processWrite_bytes mem hidx hmem hne
    obtain ⟨hok', hbytes'⟩ := processWrite_bytes mem (c := b) hidx' hmem hne'
    obtain ⟨e, hturn⟩ := turn_keep hidx hling hok mem
    refine .inr ⟨hnames, _, e, hturn, ?_⟩
    have hsame : (b.processWrite code).1.iovBytes mem = (c.processWrite code).1.iovBytes mem := by
      rw [hbytes, hbytes']
      have htexts : responseTexts b code = responseTexts c code := by
        have hl : b.linger = c.linger := hling'.trans hling.symm
        cases code with
        | fileRequest =>
          have hstat := (hfile rfl).1
          simp only [responseTexts, hl]
          rw [show b.fileStat = c.fileStat from hstat.symm]
        | _ => simp only [responseTexts, hl]
      rw [htexts]
      by_cases hf : code = .fileRequest
      · obtain ⟨hstat, haddr⟩ := hfile hf
        simp only [if_pos hf, fileBytes, bytesOf]
        rw [show b.fileStat = c.fileStat from hstat.symm, show b.fileAddress = c.fileAddress from haddr.symm]
      · rw [if_neg hf, if_neg hf]
    simp only [hok', if_true, hsame]

/-! ## One request -/

/-- A verdict stands when more bytes arrive. -/
theorem Reads.append {r : HttpConn × HttpCode} (q : List UInt8) (hr : Reads fs c r) (hcode : r.2 ≠ .noRequest)
    (h : c.Inv) (hst : c.checkState ≠ .content) : Reads fs (c.append q) (r.1.append q, r.2) := by
  induction hr with
  | wait hf => exact absurd rfl hcode
  | ret hf hbody =>
    obtain ⟨hf', hbody'⟩ := takeLine_append q h hst hf hbody
    exact .ret hf' hbody'
  | next hf hbody hst' hr ih =>
    obtain ⟨hf', hbody'⟩ := takeLine_append q h hst hf hbody
    obtain ⟨c'', next, hrun, htaken⟩ := takeLine_body fs h hst hf
    cases hbody.symm.trans hrun
    exact .next hf' hbody' hst' (ih hcode htaken.inv hst')

/-- What a run goes on with after the last piece of a request, `x` of which are behind it. -/
def resume (fs : FileSystem) (mem : Int → UInt8) (x : List UInt8) (ps : List (List UInt8)) :
    List (List UInt8) × Option HttpConn → Except Fault (List (List UInt8) × List UInt8)
  | (out, none) => return (out, x)
  | (out, some d) => do
    let (outs, lost) ← converse fs mem d ps
    return (out ++ outs, x ++ lost)

/-- The pieces up to the one that completes a request, whose bytes `v` are to come. -/
theorem converse_request (mem : Int → UInt8) {c' : HttpConn} {v w : List UInt8} (h : c.Inv) (hst : c.checkState ≠ .content)
    (hr : Reads fs (c.append v) (c', code)) (hcode : code ≠ .noRequest) (hend : c'.pending = []) (hv : v ≠ [])
    {ps : List (List UInt8)} (hps : ∀ p ∈ ps, p ≠ []) (hflat : ps.flatten = v ++ w)
    (hlen : c.readIdx + ps.flatten.length < readBufferSize) :
    ∃ qs p ps' x, ps = qs ++ p :: ps' ∧ qs.flatten.length < v.length ∧ (qs ++ [p]).flatten = v ++ x ∧
      converse fs mem c ps = resume fs mem x ps' (turn mem (c'.append x) code) := by
  induction ps generalizing c v with
  | nil => exact absurd (List.append_eq_nil_iff.mp hflat.symm).1 hv
  | cons p ps ih =>
    rw [List.forall_mem_cons] at hps
    rw [List.flatten_cons] at hflat
    simp only [List.flatten_cons, List.length_append] at hlen
    have hread := read_data hps.1 (c := c) (by omega)
    have hst' : (c.append p).checkState ≠ .content := hst
    have hidx : (c.append p).readIdx = c.readIdx + p.length := rfl
    have hinv := h.append p (by omega)
    have hlast : ∀ x, p = v ++ x → ∃ qs p' ps' x, p :: ps = qs ++ p' :: ps' ∧ qs.flatten.length < v.length ∧
        (qs ++ [p']).flatten = v ++ x ∧
        converse fs mem c (p :: ps) = resume fs mem x ps' (turn mem (c'.append x) code) := by
      rintro x rfl
      have hinv' := h.append v (by simp only [List.length_append] at hlen; omega)
      have hrun := hr.append x hcode hinv' hst
      rw [← append_append] at hrun
      have hle := (hr.result hinv' hst).1.ordered
      have hpend : (c'.append x).pending = x := by
        rw [pending_append (le_trans hle.1 hle.2.1), hend, List.nil_append]
      refine ⟨[], v ++ x, ps, x, rfl, List.length_pos_iff.mpr hv, by simp, ?_⟩
      simp only [converse, hread, hrun.processRead hinv hst', ok_bind, if_neg hcode, hpend, resume]
    rcases List.append_eq_append_iff.mp hflat with ⟨q, hvq, hq⟩ | ⟨x, hx, -⟩
    · by_cases hqn : q = []
      · exact hlast [] (by rw [hvq, hqn]; simp)
      · -- the request goes on behind this piece
        rw [hvq, append_append] at hr
        rcases hr.split hinv hst' with ⟨d, hd, hrest⟩ | ⟨d, code', hne, hd, hres⟩
        · obtain ⟨hdinv, hdidx, hwait⟩ := hd.result hinv hst'
          have hdst := (hwait rfl).1
          obtain ⟨qs, p', ps', x, rfl, hshort, hpieces, hrun⟩ := ih hdinv hdst hrest hqn hps.2 hq
            (by rw [hdidx, hidx]; omega)
          refine ⟨p :: qs, p', ps', x, rfl, ?_, ?_, ?_⟩
          · rw [hvq, List.flatten_cons, List.length_append, List.length_append]
            omega
          · rw [List.cons_append, List.flatten_cons, hpieces, hvq, List.append_assoc]
          · rw [← hrun]
            simp only [converse, hread, hd.processRead hinv hst', ok_bind, if_true]
        · -- it cannot have been complete before
          have hle := (hd.result hinv hst').1.ordered
          cases hres
          rw [pending_append (le_trans hle.1 hle.2.1)] at hend
          exact absurd (List.append_eq_nil_iff.mp hend).2 hqn
    · exact hlast x hx

/-! ## All requests -/

theorem flatten_eq_nil {ps : List (List UInt8)} (hps : ∀ p ∈ ps, p ≠ []) (h : ps.flatten = []) : ps = [] := by
  cases ps with
  | nil => rfl
  | cons p ps =>
    rw [List.flatten_cons, List.append_eq_nil_iff] at h
    exact absurd h.1 (hps p List.mem_cons_self)

/-- The first group ends with the piece that completes the first request, or there is none. -/
theorem aligned_cons_iff {r : KeepAliveGet} (rs : List KeepAliveGet) {qs ps : List (List UInt8)}
    {p x : List UInt8} (hps : ∀ q ∈ ps, q ≠ []) (hshort : qs.flatten.length < r.bytes.length)
    (hpieces : (qs ++ [p]).flatten = r.bytes ++ x) :
    Aligned (qs ++ p :: ps) (r :: rs) ↔ x = [] ∧ Aligned ps rs := by
  rw [List.append_cons]
  constructor
  · intro h
    generalize hall : qs ++ [p] ++ ps = all at h
    cases h with
    | @cons as bs _ _ has hbs =>
      rcases List.append_eq_append_iff.mp hall with ⟨mid, rfl, rfl⟩ | ⟨mid, hqs, rfl⟩
      · rw [List.flatten_append, hpieces, List.append_assoc] at has
        obtain ⟨hx, hmid⟩ := List.append_eq_nil_iff.mp (List.append_right_eq_self.mp has)
        obtain rfl := flatten_eq_nil (fun q hq => hps q (List.mem_append_left _ hq)) hmid
        exact ⟨hx, hbs⟩
      · have hx : mid.flatten = x := by
          rw [hqs, List.flatten_append, has] at hpieces
          exact List.append_cancel_left hpieces
        rcases List.eq_nil_or_concat mid with rfl | ⟨mid, q, rfl⟩
        · exact ⟨hx.symm, hbs⟩
        · rw [List.concat_eq_append, ← List.append_assoc] at hqs
          have hlen := congrArg (fun l => l.flatten.length) (List.append_inj_left' hqs rfl)
          simp only [List.flatten_append, List.length_append, has] at hlen
          omega
  · rintro ⟨rfl, h⟩
    rw [List.append_nil] at hpieces
    exact .cons hpieces h

/-- Behind the answer to the first request, all are answered if the last piece of it ends there
    and the rest are answered. -/
theorem answered_cons_iff {out x : List UInt8} {r : KeepAliveGet} {rs : List KeepAliveGet}
    {ps ps' : List (List UInt8)} (hrun : converse fs mem c ps = resume fs mem x ps' ([out], some d))
    (hans : answer fs mem r.target = some out) :
    Answered fs mem c (r :: rs) ps ↔ x = [] ∧ Answered fs mem d rs ps' := by
  unfold Answered
  rw [hrun, resume, List.map_cons, hans]
  cases converse fs mem d ps' with
  | error f => exact iff_of_false (fun ⟨_, h, _⟩ => by cases h) (fun ⟨_, _, h, _⟩ => by cases h)
  | ok res =>
    obtain ⟨outs, lost⟩ := res
    constructor
    · rintro ⟨_, h, houts⟩
      obtain ⟨rfl, hlost⟩ := Prod.mk.inj (Except.ok.inj h)
      obtain ⟨hx, rfl⟩ := List.append_eq_nil_iff.mp hlost
      exact ⟨hx, outs, rfl, (List.cons.inj houts).2⟩
    · rintro ⟨rfl, _, h, houts⟩
      cases h
      exact ⟨[out] ++ outs, rfl, congrArg (some out :: ·) houts⟩

/-- A connection of keep-alive requests answers all of them, and loses no byte, exactly
    when every request ends where a piece ends and none names an empty file. -/
theorem answered_iff (fs : FileSystem) (mem : Int → UInt8) (c : HttpConn) (rs : List KeepAliveGet)
    (ps : List (List UInt8)) (hps : ∀ p ∈ ps, p ≠ []) (hcut : ps.flatten = rs.flatMap KeepAliveGet.bytes)
    (hlen : ps.flatten.length < readBufferSize) :
    Answered fs mem c.init rs ps ↔ Aligned ps rs ∧ ∀ r ∈ rs, ¬ NamesEmptyFile fs r.target := by
  induction rs generalizing c ps with
  | nil =>
    obtain rfl := flatten_eq_nil hps hcut
    exact iff_of_true ⟨[], rfl, rfl⟩ ⟨.nil, by simp⟩
  | cons r rs ih =>
    rw [List.flatMap_cons] at hcut
    have hlen' := hlen
    rw [hcut, List.length_append] at hlen'
    obtain ⟨c', code, hr, hcode, htold, hlook⟩ := reads_request fs c r.wellFormed r.requestTarget_eq []
      (by rw [List.append_nil]; exact Nat.lt_of_le_of_lt (Nat.le_add_right _ _) hlen')
    rw [List.append_nil] at hr
    obtain ⟨qs, p, ps', x, rfl, hshort, hpieces, hrun⟩ := converse_request mem (init_inv c) nofun hr hcode
      hlook.pending r.bytes_ne_nil hps hcut (by simpa [init] using hlen)
    have hps' : ∀ q ∈ ps', q ≠ [] := fun q hq => hps q (by simp [hq])
    have halign := aligned_cons_iff rs hps' hshort hpieces
    obtain ⟨d, hopen⟩ := hlook.opened
    have hopen' : openStep fs (d.append x) (pathOf r.target) = (c'.append x, code) := by
      rw [openStep_append, hopen]
    have hling : (c'.append x).linger = true := htold.linger.trans r.keepAlive
    rcases turn_answer hopen' hlook.writeIdx hling mem with ⟨hempty, hturn, -⟩ | ⟨hnames, out, e, hturn, hans⟩
    · -- the connection is closed without a response
      rw [hturn] at hrun
      refine iff_of_false ?_ fun h => h.2 r List.mem_cons_self hempty
      rintro ⟨outs, hconv, houts⟩
      cases hrun.symm.trans hconv
      cases houts
    · rw [hturn] at hrun
      have hrest : x ++ ps'.flatten = rs.flatMap KeepAliveGet.bytes := by
        rw [List.append_cons, List.flatten_append, hpieces, List.append_assoc] at hcut
        exact List.append_cancel_left hcut
      rw [answered_cons_iff hrun hans, halign, List.forall_mem_cons]
      constructor
      · rintro ⟨rfl, h⟩
        obtain ⟨hal, hall⟩ := (ih e ps' hps' hrest (by rw [← List.nil_append ps'.flatten, hrest]; omega)).mp h
        exact ⟨⟨rfl, hal⟩, hnames, hall⟩
      · rintro ⟨⟨rfl, hal⟩, -, hall⟩
        exact ⟨rfl, (ih e ps' hps' hrest (by rw [← List.nil_append ps'.flatten, hrest]; omega)).mpr ⟨hal, hall⟩⟩

/-- `GET /a` with a `Connection` header. -/
def getA : KeepAliveGet where
  line := ascii "GET /a HTTP/1.1"
  headers := [ascii "Connection: keep-alive"]
  wellFormed := .of_check (by decide) (by decide) (by decide)
  keepAlive := by decide
  bodyless := by decide

theorem answered_getA :
    Answered ⟨fun _ => none, fun _ _ => -1⟩ (fun _ => 0) blank.init [getA, getA]
        [getA.bytes.take 20, getA.bytes.drop 20, getA.bytes] ↔
      Aligned [getA.bytes.take 20, getA.bytes.drop 20, getA.bytes] [getA, getA] ∧
        ∀ r ∈ [getA, getA], ¬ NamesEmptyFile ⟨fun _ => none, fun _ _ => -1⟩ r.target :=
  answered_iff _ _ _ _ _ (by decide) (by decide) (by decide)

/-- Of two requests that arrive together the second is thrown away. -/
theorem second_request_lost :
    ¬ Answered ⟨fun _ => none, fun _ _ => -1⟩ (fun _ => 0) blank.init [getA, getA]
      [getA.bytes ++ getA.bytes] := by
  rintro ⟨outs, hconv, -⟩
  have hlost : (match converse ⟨fun _ => none, fun _ _ => -1⟩ (fun _ => 0) blank.init
      [getA.bytes ++ getA.bytes] with
      | .ok (outs, lost) => some (outs.length, lost)
      | .error _ => none) = some (1, getA.bytes) := by
    decide +kernel
  rw [hconv] at hlost
  exact getA.bytes_ne_nil (Prod.mk.inj (Option.some.inj hlost)).2.symm

end HttpConn

end Http
