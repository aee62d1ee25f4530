-- SUMMARY: The file mappings of one http_conn object over all its connections, and when every munmap is of a held mapping and none outlives its connection.
import LinuxLearning.HttpConn.Frame
import LinuxLearning.HttpConn.Framing
import LinuxLearning.Common.Run

/-!
# Mapped files

`do_request` maps the file of a request and `unmap` releases what `m_file_address`
holds, with the size in `m_file_stat`. The kernel's side is a list of mappings. What goes
wrong goes wrong in two ways: `unmap` finds an address that nobody mapped, or the
connection is closed with the mapping in place.
-/

namespace Http

open Memory CString Transition

def mapFailed : Int := -1

/-- `mmap` returns `MAP_FAILED` or the address of a mapping, which is not null, and maps
    nothing for the length 0. -/
def FileSystem.Maps (fs : FileSystem) : Prop :=
  ∀ path n, fs.mmap path n = mapFailed ∨ (0 < fs.mmap path n ∧ 0 < n)

namespace Mapping

inductive Stage where
  | closed | reading | writing
deriving Repr, DecidableEq

/-- An object with the mappings that were made for it and are still held. -/
structure Owner where
  conn : HttpConn
  stage : Stage
  held : List (Int × Nat)

/-- What happens to an object: a connection is accepted for it, its socket is readable, with the
    result of `mmap` if it is called, its socket is writable, with the results of `writev`, or the
    peer or an error ends the connection. -/
inductive Event where
  | accept (fd : Int)
  | request (fs : FileSystem) (rs : List HttpConn.Recv) (mmap : Option Int)
  | respond (os : List Writev)
  | hangup

/-- A new object, with whatever its memory held. -/
def Owner.fresh (c : HttpConn) : Owner := ⟨c, .closed, []⟩

/-- `close_conn`. -/
def Owner.close (s : Owner) : Owner :=
  { s with conn := { s.conn with sockfd := -1 }, stage := .closed }

/-- The mapping that a `process_read` ending in `d` with `code` has made. -/
def mappingOf (d : HttpConn) (code : HttpCode) : List (Int × Nat) :=
  if code = .fileRequest ∧ d.fileAddress ≠ mapFailed then [(d.fileAddress, d.fileStat.size)] else []

/-- What `mmap` has returned, which only `FILE_REQUEST` comes from. -/
def mmapResult (d : HttpConn) (code : HttpCode) : Option Int :=
  if code = .fileRequest then some d.fileAddress else none

/-- The end of `process()`, after a verdict of `process_read`. -/
def Owner.answer (s : Owner) (d : HttpConn) (code : HttpCode) : Owner :=
  let t := { s with
    conn := (d.processWrite code).1
    stage := .writing
    held := s.held ++ mappingOf d code }
  if (d.processWrite code).2 then t else t.close

/-- The call of `munmap` in a `write()` of `c`: `unmap` makes one where it finds an address. -/
def munmapCall (c : HttpConn) (r : WriteCall) : Option (Int × Nat) :=
  if c.fileAddress ≠ 0 ∧ r.conn.fileAddress = 0 then some (c.fileAddress, c.fileStat.size) else none

/-- `write()`, and `close_conn` if it returns false. -/
def Owner.respond (s : Owner) (r : WriteCall) : Owner :=
  let t := { s with
    conn := r.conn
    stage := if r.armed = some .epollout then .writing else .reading
    held := (munmapCall s.conn r).elim s.held s.held.erase }
  if r.ret then t else t.close

/-- The results of `writev` are those of one call of `write()`. -/
inductive Step (mem : Int → UInt8) : Owner → Event → Owner → Prop where
  | accept {s fd} : s.stage = .closed →
      Step mem s (.accept fd) { s with conn := s.conn.initSock fd, stage := .reading }
  | readFails {s c fs rs} : s.stage = .reading → s.conn.read rs = (c, false) →
      Step mem s (.request fs rs none) { s with conn := c }.close
  | waits {s c d fs rs} : s.stage = .reading → s.conn.read rs = (c, true) →
      c.processRead fs = .ok (d, .noRequest) → Step mem s (.request fs rs none) { s with conn := d }
  | answers {s c d code fs rs} : s.stage = .reading → s.conn.read rs = (c, true) → fs.Maps →
      c.processRead fs = .ok (d, code) → code ≠ .noRequest →
      Step mem s (.request fs rs (mmapResult d code)) (s.answer d code)
  | responds {s r os} : s.stage = .writing → s.conn.write mem os = some r → r.rest = [] →
      Step mem s (.respond os) (s.respond r)
  | hangup {s} : s.stage ≠ .closed → Step mem s .hangup s.close

/-- Every `munmap` of the step is of a mapping that is held, with its length, and a closed
    connection holds none. -/
structure Sound (mem : Int → UInt8) (s : Owner) (e : Event) (t : Owner) : Prop where
  munmap : ∀ os r m, e = .respond os → s.conn.write mem os = some r → munmapCall s.conn r = some m → m ∈ s.held
  closed : t.stage = .closed → t.held = []

-- ---------------------------------------------------------------------------
-- Seen from outside
-- ---------------------------------------------------------------------------

def Event.mmap : Event → Option Int
  | .request _ _ a => a
  | _ => none

/-- A call of `write()` is the last one for its response: it does not end with `EAGAIN`. -/
def Event.endsWrite : Event → Bool
  | .respond os => decide (os.getLast? ≠ some .eagain)
  | _ => false

/-- `mmap` was not called, and no `write()` has ended. -/
def Quiet (es : List Event) : Prop :=
  ∀ e ∈ es, e.mmap = none ∧ e.endsWrite = false

/-- The last `mmap` has returned `b`, and no `write()` has ended since. -/
def Mapped (es : List Event) (b : Int) : Prop :=
  ∃ before e after, es = before ++ e :: after ∧ e.mmap = some b ∧ Quiet after

/-- After the events `es`, with `a` left in the memory of `m_file_address`: a `write()` ends only
    if it is not the first thing, or the memory was 0, and not after an `mmap` that failed; and
    nobody hangs up after one that succeeded. -/
structure Fine (a : Int) (es : List Event) (e : Event) : Prop where
  memory : e.endsWrite = true → Quiet es → a = 0
  failed : e.endsWrite = true → ¬ Mapped es mapFailed
  hangup : ∀ b, e = .hangup → Mapped es b → b = mapFailed

variable {mem : Int → UInt8} {s t : Owner} {e : Event} {es : List Event} {c d : HttpConn} {code : HttpCode}
  {r : WriteCall} {a b : Int}

/-- Any other event is fine. -/
theorem Fine.other (hends : e.endsWrite = false) (hhang : e ≠ .hangup) : Fine a es e :=
  ⟨fun he => absurd (hends.symm.trans he) (by decide), fun he => absurd (hends.symm.trans he) (by decide),
    fun _ he => absurd he hhang⟩

theorem quiet_snoc : Quiet (es ++ [e]) ↔ Quiet es ∧ e.mmap = none ∧ e.endsWrite = false := by
  simp only [Quiet, List.forall_mem_append, List.forall_mem_singleton]

theorem mapped_snoc :
    Mapped (es ++ [e]) b ↔ e.mmap = some b ∨ Mapped es b ∧ e.mmap = none ∧ e.endsWrite = false := by
  constructor
  · rintro ⟨before, f, after, heq, hf, hquiet⟩
    rcases List.eq_nil_or_concat after with rfl | ⟨after, g, rfl⟩
    · obtain ⟨-, hfe⟩ := List.append_inj' heq rfl
      cases hfe
      exact .inl hf
    · rw [List.concat_eq_append] at heq hquiet
      rw [← List.cons_append, ← List.append_assoc] at heq
      obtain ⟨rfl, hge⟩ := List.append_inj' heq rfl
      cases hge
      obtain ⟨hquiet', he⟩ := quiet_snoc.mp hquiet
      exact .inr ⟨⟨before, f, after, rfl, hf, hquiet'⟩, he⟩
  · rintro (he | ⟨⟨before, f, after, rfl, hf, hquiet⟩, he⟩)
    · exact ⟨es, e, [], rfl, he, nofun⟩
    · exact ⟨before, f, after ++ [e], by simp, hf, quiet_snoc.mpr ⟨hquiet, he⟩⟩

/-- Nothing of it matters for `m_file_address`. -/
def Event.Silent (e : Event) : Prop :=
  e.mmap = none ∧ e.endsWrite = false

theorem quiet_silent (he : e.Silent) : Quiet (es ++ [e]) ↔ Quiet es :=
  quiet_snoc.trans (and_iff_left he)

theorem mapped_silent (he : e.Silent) : Mapped (es ++ [e]) b ↔ Mapped es b := by
  rw [mapped_snoc, he.1]
  simp [he.2]

theorem not_quiet_of_mapped (h : Mapped es b) : ¬ Quiet es := by
  obtain ⟨before, f, after, rfl, hf, -⟩ := h
  intro hquiet
  rw [(hquiet f (by simp)).1] at hf
  cases hf

theorem Mapped.unique (h : Mapped es a) (h' : Mapped es b) : a = b := by
  induction es using List.reverseRecOn with
  | nil =>
    obtain ⟨before, f, after, heq, -⟩ := h
    simp at heq
  | append_singleton es e ih =>
    rcases mapped_snoc.mp h with he | ⟨hes, he, -⟩
    · rcases mapped_snoc.mp h' with he' | ⟨-, he', -⟩
      · exact Option.some.inj (he.symm.trans he')
      · rw [he] at he'
        cases he'
    · rcases mapped_snoc.mp h' with he' | ⟨hes', -⟩
      · rw [he] at he'
        cases he'
      · exact ih hes hes'

/-! ## The invariant -/

/-- Who has set `m_file_address`, as far as one can tell from outside, and what is held. -/
inductive Address (a : Int) (es : List Event) (s : Owner) : Prop where
  | constructed : Quiet es → s.conn.fileAddress = a → s.held = [] → Address a es s
  | failed : Mapped es mapFailed → s.conn.fileAddress = mapFailed → s.held = [] → Address a es s
  | mapped {b : Int} : Mapped es b → b ≠ mapFailed → s.stage = .writing → s.conn.fileAddress ≠ 0 →
      s.held = [(s.conn.fileAddress, s.conn.fileStat.size)] → Address a es s
  | unmapped : ¬ Quiet es → (∀ b, ¬ Mapped es b) → s.conn.fileAddress = 0 → s.held = [] → Address a es s

structure Inv (a : Int) (es : List Event) (s : Owner) : Prop where
  reading : s.stage = .reading → s.conn.writeIdx = 0
  writing : s.stage = .writing → s.conn.writeIdx ≠ 0
  address : Address a es s

theorem fresh_inv (c : HttpConn) : Inv c.fileAddress [] (.fresh c) where
  reading := nofun
  writing := nofun
  address := .constructed nofun rfl rfl

/-- A mapped file is waiting to be sent. -/
theorem Address.idle (h : Address a es s) (hst : s.stage ≠ .writing) : s.held = [] := by
  cases h with
  | constructed _ _ hheld => exact hheld
  | failed _ _ hheld => exact hheld
  | mapped _ _ hwriting _ _ => exact absurd hwriting hst
  | unmapped _ _ _ hheld => exact hheld

/-- The same address, with nothing to be sent, after an event that does not matter for it. -/
theorem Address.silent (h : Address a es s) (he : e.Silent) (hheld : s.held = [])
    (haddr : t.conn.fileAddress = s.conn.fileAddress) (hsame : t.held = []) : Address a (es ++ [e]) t := by
  cases h with
  | constructed hquiet ha _ => exact .constructed ((quiet_silent he).mpr hquiet) (haddr.trans ha) hsame
  | failed hmapped ha _ => exact .failed ((mapped_silent he).mpr hmapped) (haddr.trans ha) hsame
  | mapped _ _ _ _ hone =>
    rw [hheld] at hone
    cases hone
  | unmapped hquiet hmapped ha _ =>
    exact .unmapped ((quiet_silent he).not.mpr hquiet) (fun b => (mapped_silent he).not.mpr (hmapped b))
      (haddr.trans ha) hsame

/-- An object that is not sending anything may be given another connection. -/
theorem Inv.replace (h : Inv a es s) (hst : s.stage ≠ .writing) (he : e.Silent) {st : Stage} (hwr : st ≠ .writing)
    (haddr : c.fileAddress = s.conn.fileAddress) (hidx : st = .reading → c.writeIdx = 0) :
    Inv a (es ++ [e]) { s with conn := c, stage := st } where
  reading := hidx
  writing h' := absurd h' hwr
  address := h.address.silent he (h.address.idle hst) haddr (h.address.idle hst)

/-- What a verdict has mapped: nothing, or the file that the response sends. -/
theorem mappingOf_cases {fs : FileSystem} (hfs : fs.Maps) (ho : c.Opened fs d code) :
    (code = .fileRequest ∧ d.fileAddress = mapFailed ∧ mappingOf d code = []) ∨
      (code = .fileRequest ∧ d.fileAddress ≠ mapFailed ∧ d.fileAddress ≠ 0 ∧ d.fileStat.size ≠ 0 ∧
        mappingOf d code = [(d.fileAddress, d.fileStat.size)]) ∨
      (code ≠ .fileRequest ∧ d.fileAddress = c.fileAddress ∧ mappingOf d code = []) := by
  by_cases hcode : code = .fileRequest
  · obtain ⟨path, haddr⟩ := ho.mapped hcode
    rcases hfs path d.fileStat.size with hfail | ⟨hpos, hsize⟩
    · rw [← haddr] at hfail
      exact .inl ⟨hcode, hfail, by simp [mappingOf, hfail]⟩
    · rw [← haddr] at hpos
      have hne : d.fileAddress ≠ mapFailed := by
        simp only [mapFailed]
        omega
      exact .inr (.inl ⟨hcode, hne, by omega, by omega, by simp [mappingOf, hcode, hne]⟩)
  · exact .inr (.inr ⟨hcode, ho.kept hcode, by simp [mappingOf, hcode]⟩)

theorem Inv.answer {fs : FileSystem} (h : Inv a es s) (rs : List HttpConn.Recv) (hst : s.stage = .reading)
    (hfs : fs.Maps) (ho : s.conn.Opened fs d code) :
    Inv a (es ++ [.request fs rs (mmapResult d code)]) (s.answer d code) ∧
      ((s.answer d code).stage = .closed → (s.answer d code).held = []) := by
  have hheld := h.address.idle (by rw [hst]; nofun)
  have hidx : d.writeIdx = 0 := ho.writeIdx.trans (h.reading hst)
  have hprep : (d.processWrite code).2 = true → 0 < (d.processWrite code).1.writeIdx :=
    fun hok => (HttpConn.processWrite_prepared hidx hok).writeIdx_pos
  have hfile : code = .fileRequest → d.fileStat.size ≠ 0 → (d.processWrite code).2 = true := by
    rintro rfl hne
    exact (HttpConn.fileResponse_bytes (fun _ => 0) hidx hne).1
  obtain ⟨m, k, v, w, n, hsame⟩ := HttpConn.processWrite_same d code
  have haddr : (d.processWrite code).1.fileAddress = d.fileAddress := by rw [hsame]
  have hstat : (d.processWrite code).1.fileStat = d.fileStat := by rw [hsame]
  simp only [Owner.answer]
  generalize d.processWrite code = q at *
  obtain ⟨c₁, ok⟩ := q
  simp only at haddr hstat hprep hfile ⊢
  rw [hheld, List.nil_append]
  have hmmap : ∀ b, d.fileAddress = b → code = .fileRequest →
      Mapped (es ++ [.request fs rs (mmapResult d code)]) b := by
    rintro b rfl rfl
    exact mapped_snoc.mpr (.inl rfl)
  -- the response is ready, or there is none and the connection is closed
  have hanswer : ∀ t : Owner, t.conn.fileAddress = c₁.fileAddress → t.conn.fileStat = c₁.fileStat →
      t.held = mappingOf d code → (t.stage = .writing ∨ ok = false) →
      Address a (es ++ [.request fs rs (mmapResult d code)]) t := by
    intro t htaddr htstat htheld htstage
    rcases mappingOf_cases hfs ho with ⟨hcode, hfail, hnone⟩ | ⟨hcode, hne, hpos, hsize, hone⟩ | ⟨hcode, hkept, hnone⟩
    · exact .failed (hmmap _ hfail hcode) (htaddr.trans (haddr.trans hfail)) (htheld.trans hnone)
    · have hok := hfile hcode hsize
      refine .mapped (hmmap _ rfl hcode) hne (htstage.resolve_right (by rw [hok]; nofun)) ?_ ?_
      · rwa [htaddr, haddr]
      · rw [htheld, hone, htaddr, haddr, htstat, hstat]
    · have hsilent : Event.Silent (.request fs rs (mmapResult d code)) :=
        ⟨if_neg hcode, rfl⟩
      exact h.address.silent hsilent hheld (htaddr.trans (haddr.trans hkept)) (htheld.trans hnone)
  have hclosed : ok = false → mappingOf d code = [] := by
    intro hok
    rcases mappingOf_cases hfs ho with ⟨-, -, hnone⟩ | ⟨hcode, -, -, hsize, -⟩ | ⟨-, -, hnone⟩
    · exact hnone
    · rw [hfile hcode hsize] at hok
      cases hok
    · exact hnone
  cases ok with
  | true => exact ⟨⟨nofun, fun _ => Nat.pos_iff_ne_zero.mp (hprep rfl), hanswer _ rfl rfl rfl (.inl rfl)⟩, nofun⟩
  | false => exact ⟨⟨nofun, nofun, hanswer _ rfl rfl rfl (.inr rfl)⟩, fun _ => hclosed rfl⟩

/-- A `write()` that ends finds the mapping it releases, or no address. -/
theorem Inv.release (h : Inv a es s) (he : e.endsWrite = true) (hfine : Fine a es e) :
    (s.conn.fileAddress = 0 ∧ s.held = []) ∨
      (s.conn.fileAddress ≠ 0 ∧ s.held = [(s.conn.fileAddress, s.conn.fileStat.size)]) := by
  cases h.address with
  | constructed hquiet ha hheld => exact .inl ⟨ha.trans (hfine.memory he hquiet), hheld⟩
  | failed hmapped _ _ => exact absurd hmapped (hfine.failed he)
  | mapped _ _ _ hpos hheld => exact .inr ⟨hpos, hheld⟩
  | unmapped _ _ ha hheld => exact .inl ⟨ha, hheld⟩

theorem unmapped_end (es : List Event) (he : e.endsWrite = true) (hnone : e.mmap = none) :
    ¬ Quiet (es ++ [e]) ∧ ∀ b, ¬ Mapped (es ++ [e]) b := by
  refine ⟨fun hquiet => ?_, fun b hmapped => ?_⟩
  · rw [(quiet_snoc.mp hquiet).2.2] at he
    cases he
  · rcases mapped_snoc.mp hmapped with hsome | ⟨-, -, hend⟩
    · rw [hnone] at hsome
      cases hsome
    · rw [hend] at he
      cases he

theorem write_fileAddress {os : List Writev} (hidx : s.conn.writeIdx ≠ 0) (hwrite : s.conn.write mem os = some r)
    (harmed : r.armed ≠ some .epollout) : r.conn.fileAddress = 0 := by
  rcases HttpConn.write_conn hidx hwrite with ⟨ha, -⟩ | ⟨-, ⟨-, hc⟩ | ⟨-, hc⟩⟩
  · exact absurd ha harmed
  · rw [hc]
    exact HttpConn.unmap_fileAddress
  · rw [hc]
    exact HttpConn.unmap_fileAddress

theorem Inv.respond (h : Inv a es s) (hst : s.stage = .writing) {os : List Writev} (hwrite : s.conn.write mem os = some r)
    (hrest : r.rest = []) (hfine : Fine a es (.respond os)) :
    Inv a (es ++ [.respond os]) (s.respond r) ∧ (∀ m, munmapCall s.conn r = some m → m ∈ s.held) ∧
      ((s.respond r).stage = .closed → (s.respond r).held = []) := by
  have hidx := h.writing hst
  have hwaits := HttpConn.write_waits_iff hidx hwrite hrest
  rcases HttpConn.write_conn hidx hwrite with ⟨harmed, hconn, hret⟩ | ⟨harmed, hend⟩
  · -- the response goes on with the next event
    have hcall : munmapCall s.conn r = none := by
      rw [munmapCall, hconn, if_neg (fun h => h.1 h.2)]
    have hsame : s.respond r = s := by
      simp only [Owner.respond, hret, harmed, hcall, hconn, if_true, Option.elim_none]
      rw [← hst]
    have hsilent : Event.Silent (.respond os) := by
      refine ⟨rfl, ?_⟩
      simp [Event.endsWrite, hwaits.mp harmed]
    rw [hsame]
    refine ⟨⟨h.reading, h.writing, ?_⟩, by simp [hcall], fun hc => by rw [hst] at hc; cases hc⟩
    cases h.address with
    | constructed hquiet ha hheld => exact .constructed ((quiet_silent hsilent).mpr hquiet) ha hheld
    | failed hmapped ha hheld => exact .failed ((mapped_silent hsilent).mpr hmapped) ha hheld
    | mapped hmapped hne hst' hpos hheld => exact .mapped ((mapped_silent hsilent).mpr hmapped) hne hst' hpos hheld
    | unmapped hquiet hmapped ha hheld =>
      exact .unmapped ((quiet_silent hsilent).not.mpr hquiet) (fun b => (mapped_silent hsilent).not.mpr (hmapped b)) ha hheld
  · have haddr := write_fileAddress hidx hwrite harmed
    have hends : Event.endsWrite (.respond os) = true := by
      simpa [Event.endsWrite] using hwaits.not.mp harmed
    obtain ⟨hquiet, hmapped⟩ := unmapped_end es hends rfl
    have hcall : (munmapCall s.conn r).elim s.held s.held.erase = [] ∧
        ∀ m, munmapCall s.conn r = some m → m ∈ s.held := by
      rcases h.release hends hfine with ⟨hzero, hheld⟩ | ⟨hpos, hheld⟩
      · have hnone : munmapCall s.conn r = none := by rw [munmapCall, if_neg (fun h => h.1 hzero)]
        rw [hnone]
        exact ⟨hheld, nofun⟩
      · have hsome : munmapCall s.conn r = some (s.conn.fileAddress, s.conn.fileStat.size) := if_pos ⟨hpos, haddr⟩
        rw [hsome, hheld]
        refine ⟨by simp, ?_⟩
        rintro m ⟨⟩
        exact List.mem_singleton_self _
    obtain ⟨hheld, hmem⟩ := hcall
    simp only [Owner.respond, hheld, if_neg harmed]
    rcases hend with ⟨hret, hconn⟩ | ⟨hret, -⟩
    · have hidx' : r.conn.writeIdx = 0 := by rw [hconn]; rfl
      rw [if_pos hret]
      exact ⟨⟨fun _ => hidx', nofun, .unmapped hquiet hmapped haddr rfl⟩, hmem, nofun⟩
    · rw [if_neg (by rw [hret]; decide)]
      exact ⟨⟨nofun, nofun, .unmapped hquiet hmapped haddr rfl⟩, hmem, fun _ => rfl⟩

/-- A step that is fine is sound. -/
theorem Inv.step (h : Inv a es s) (hstep : Step mem s e t) (hfine : Fine a es e) :
    Inv a (es ++ [e]) t ∧ Sound mem s e t := by
  cases hstep with
  | accept hst =>
    have hne : s.stage ≠ .writing := by rw [hst]; nofun
    exact ⟨h.replace hne ⟨rfl, rfl⟩ nofun rfl fun _ => rfl, (fun _ _ _ he => by cases he), nofun⟩
  | @readFails c fs rs hst hread =>
    have hne : s.stage ≠ .writing := by rw [hst]; nofun
    have hparsed := HttpConn.read_parsed s.conn rs
    rw [hread] at hparsed
    exact ⟨h.replace hne ⟨rfl, rfl⟩ nofun hparsed.fileAddress nofun, (fun _ _ _ he => by cases he),
      fun _ => h.address.idle hne⟩
  | @waits c d fs rs hst hread hrun =>
    have hne : s.stage ≠ .writing := by rw [hst]; nofun
    have hparsed := HttpConn.read_parsed s.conn rs
    rw [hread] at hparsed
    have ho := (HttpConn.processRead_opened hrun).after hparsed
    refine ⟨h.replace hne ⟨rfl, rfl⟩ hne (ho.kept nofun) fun _ => ho.writeIdx.trans (h.reading hst), ?_, ?_⟩
    · exact fun _ _ _ he => by cases he
    · exact fun hc => by rw [hst] at hc; cases hc
  | @answers c d code fs rs hst hread hfs hrun hcode =>
    have hparsed := HttpConn.read_parsed s.conn rs
    rw [hread] at hparsed
    obtain ⟨hinv, hclosed⟩ := h.answer rs hst hfs ((HttpConn.processRead_opened hrun).after hparsed)
    exact ⟨hinv, (fun _ _ _ he => by cases he), hclosed⟩
  | @responds r os hst hwrite hrest =>
    obtain ⟨hinv, hmem, hclosed⟩ := h.respond hst hwrite hrest hfine
    refine ⟨hinv, ?_, hclosed⟩
    rintro os' r' m ⟨⟩ hwrite' hcall
    cases hwrite.symm.trans hwrite'
    exact hmem m hcall
  | hangup hst =>
    have hidle : s.held = [] := by
      cases h.address with
      | constructed _ _ hheld => exact hheld
      | failed _ _ hheld => exact hheld
      | mapped hmapped hne _ _ _ => exact absurd (hfine.hangup _ rfl hmapped) hne
      | unmapped _ _ _ hheld => exact hheld
    exact ⟨⟨nofun, nofun, h.address.silent ⟨rfl, rfl⟩ hidle rfl hidle⟩, (fun _ _ _ he => by cases he), fun _ => hidle⟩

/-- A step that is not fine is not sound. -/
theorem Inv.fine (h : Inv a es s) (hstep : Step mem s e t) (hsound : Sound mem s e t) : Fine a es e := by
  cases hstep with
  | @responds r os hst hwrite hrest =>
    have hwaits := HttpConn.write_waits_iff (h.writing hst) hwrite hrest
    -- an address that nobody mapped is not released
    have hzero : Event.endsWrite (.respond os) = true → s.held = [] → s.conn.fileAddress = 0 := by
      intro hends hheld
      by_contra hpos
      have harmed : r.armed ≠ some .epollout := fun hagain => by
        simp [Event.endsWrite, hwaits.mp hagain] at hends
      have hmem := hsound.munmap os r _ rfl hwrite
        (if_pos ⟨hpos, write_fileAddress (h.writing hst) hwrite harmed⟩)
      rw [hheld] at hmem
      exact List.not_mem_nil hmem
    cases h.address with
    | constructed hquiet ha hheld =>
      exact ⟨fun hends _ => ha.symm.trans (hzero hends hheld),
        fun _ hmapped => not_quiet_of_mapped hmapped hquiet, fun _ he => by cases he⟩
    | failed hmapped ha hheld =>
      refine ⟨fun _ hquiet => absurd hquiet (not_quiet_of_mapped hmapped), fun hends _ => ?_, fun _ he => by cases he⟩
      have hfail := ha.symm.trans (hzero hends hheld)
      exact absurd hfail (by decide)
    | mapped hmapped hne _ _ _ =>
      exact ⟨fun _ hquiet => absurd hquiet (not_quiet_of_mapped hmapped), fun _ hfail => hne (hmapped.unique hfail),
        fun _ he => by cases he⟩
    | unmapped hquiet hmapped _ _ =>
      exact ⟨fun _ h => absurd h hquiet, fun _ h => hmapped _ h, fun _ he => by cases he⟩
  | hangup hst =>
    refine ⟨(fun he => by cases he), (fun he => by cases he), fun b _ hmapped => ?_⟩
    have hheld : s.held = [] := hsound.closed rfl
    cases h.address with
    | constructed hquiet _ _ => exact absurd hquiet (not_quiet_of_mapped hmapped)
    | failed hfail _ _ => exact hmapped.unique hfail
    | mapped _ _ _ _ hone =>
      rw [hheld] at hone
      cases hone
    | unmapped _ hnone _ _ => exact absurd hmapped (hnone b)
  | _ => exact .other rfl (by rintro ⟨⟩)

/-- All steps of a run are sound exactly if, seen from outside, every event is fine after those
    before it: what counts is the memory that the object was made in, what `mmap` returns, and how
    the ends of `write()` and the hang-ups follow it. -/
theorem mappings_iff (mem : Int → UInt8) (c : HttpConn) (es : List Event) (s : Owner) :
    Run (fun s e t => Step mem s e t ∧ Sound mem s e t) (.fresh c) es s ↔
      Run (Step mem) (.fresh c) es s ∧
        ∀ before e after, es = before ++ e :: after → Fine c.fileAddress before e :=
  Run.congr_history (I := Inv c.fileAddress) (F := Fine c.fileAddress)
    (fun _ _ _ _ h hstep hfine => (h.step hstep hfine).1)
    (fun _ _ _ _ h hstep => ⟨fun hfine => (h.step hstep hfine).2, fun hsound => h.fine hstep hsound⟩)
    (fresh_inv c)

/-- The first connection of an object whose memory held 4096 asks for a missing file, and
    `unmap` releases the address 4096. -/
theorem garbage_unmapped : ∃ es s e t,
    Run (Step fun _ => 0) (.fresh { HttpConn.blank with fileAddress := 4096 }) es s ∧
      Step (fun _ => 0) s e t ∧ ¬ Sound (fun _ => 0) s e t := by
  have hcode : ((({ HttpConn.blank with fileAddress := 4096 }.initSock 5).append
      (ascii "GET /a HTTP/1.1\r\n\r\n")).processRead ⟨fun _ => none, fun _ _ => -1⟩).toOption.map
      Prod.snd = some .noResource := by
    decide +kernel
  have haccept : Step (fun _ => 0) (.fresh { HttpConn.blank with fileAddress := 4096 }) (.accept 5)
      ⟨{ HttpConn.blank with fileAddress := 4096 }.initSock 5, .reading, []⟩ := .accept rfl
  have hinv := ((fresh_inv _).step haccept (.other rfl (by rintro ⟨⟩))).1
  have haddr : ({ HttpConn.blank with fileAddress := 4096 }.initSock 5).fileAddress = 4096 := rfl
  have hread : ({ HttpConn.blank with fileAddress := 4096 }.initSock 5).read
      [.data (ascii "GET /a HTTP/1.1\r\n\r\n")] = (_, true) :=
    HttpConn.read_data (by decide) (by decide)
  generalize { HttpConn.blank with fileAddress := 4096 }.initSock 5 = c at *
  generalize c.append (ascii "GET /a HTTP/1.1\r\n\r\n") = c' at *
  obtain ⟨⟨d, code⟩, hrun, rfl⟩ := ok_of_toOption hcode
  have hrequest : Step (fun _ => 0) ⟨c, .reading, []⟩
      (.request ⟨fun _ => none, fun _ _ => -1⟩ [.data (ascii "GET /a HTTP/1.1\r\n\r\n")] none) _ :=
    .answers rfl hread (fun _ _ => .inl rfl) hrun (by rintro ⟨⟩)
  have hparsed := HttpConn.read_parsed c [.data (ascii "GET /a HTTP/1.1\r\n\r\n")]
  rw [hread] at hparsed
  have hopened := (HttpConn.processRead_opened hrun).after hparsed
  have hidx : d.writeIdx = 0 := hopened.writeIdx.trans (hinv.reading rfl)
  have hmem : HttpCode.noResource ∈ HttpConn.verdicts := by decide
  have hok : (d.processWrite .noResource).2 = true :=
    (HttpConn.processWrite_bytes (fun _ => 0) hidx hmem (by rintro ⟨⟩)).1
  have hinv' := (hinv.step hrequest (.other rfl (by rintro ⟨⟩))).1
  have hanswer : Owner.answer ⟨c, .reading, []⟩ d .noResource =
      ⟨(d.processWrite .noResource).1, .writing, []⟩ := by
    simp only [Owner.answer, hok, if_true]
    rfl
  rw [hanswer] at hrequest hinv'
  obtain ⟨m, k, v, w, n, hsame⟩ := HttpConn.processWrite_same d .noResource
  have hgarbage : (d.processWrite .noResource).1.fileAddress = 4096 := by
    rw [hsame]
    exact (hopened.kept (by rintro ⟨⟩)).trans haddr
  have hwrite : (d.processWrite .noResource).1.write (fun _ => 0) [.error] =
      some ⟨(d.processWrite .noResource).1.unmap, [], none, false, []⟩ := by
    rw [HttpConn.write, if_neg (hinv'.writing rfl)]
    rfl
  have hrespond : Step (fun _ => 0) ⟨(d.processWrite .noResource).1, .writing, []⟩ (.respond [.error]) _ :=
    .responds rfl hwrite rfl
  refine ⟨_, _, _, _, .cons haccept (.cons hrequest (.nil _)), hrespond, fun hsound => ?_⟩
  have hfine := hinv'.fine hrespond hsound
  have hquiet : Quiet [.accept 5, .request ⟨fun _ => none, fun _ _ => -1⟩
      [.data (ascii "GET /a HTTP/1.1\r\n\r\n")] none] := by
    rintro e he
    simp only [List.mem_cons, List.not_mem_nil, or_false] at he
    rcases he with rfl | rfl
    · exact ⟨rfl, rfl⟩
    · exact ⟨rfl, rfl⟩
  exact absurd (hfine.memory rfl hquiet) (by decide)

end Mapping

end Http
