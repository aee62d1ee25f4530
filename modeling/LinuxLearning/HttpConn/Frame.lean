-- SUMMARY: What each function of http_conn leaves alone: the socket, the write index, and the mapping.
import LinuxLearning.HttpConn.ResponseFraming

/-!
# What a function leaves alone

Only `init(sockfd, addr)` and `close_conn` write `m_sockfd`, and only `do_request` and
`unmap` write `m_file_address`.
-/

namespace Http

open Memory CString

namespace HttpConn

variable {c c' d e : HttpConn} {fs : FileSystem} {mem : Int → UInt8} {u text n : Nat}

/-! ## Parsing -/

/-- What reading and `process_read` leave alone. -/
structure Handled (c d : HttpConn) : Prop where
  sockfd : d.sockfd = c.sockfd
  writeIdx : d.writeIdx = c.writeIdx

/-- What the parse functions leave alone. -/
structure Parsed (c d : HttpConn) : Prop extends Handled c d where
  fileStat : d.fileStat = c.fileStat
  fileAddress : d.fileAddress = c.fileAddress

theorem Handled.trans (h : Handled c d) (h' : Handled d e) : Handled c e :=
  ⟨h'.sockfd.trans h.sockfd, h'.writeIdx.trans h.writeIdx⟩

theorem Parsed.refl (c : HttpConn) : Parsed c c :=
  ⟨⟨rfl, rfl⟩, rfl, rfl⟩

theorem Parsed.trans (h : Parsed c d) (h' : Parsed d e) : Parsed c e :=
  ⟨h.toHandled.trans h'.toHandled, h'.fileStat.trans h.fileStat, h'.fileAddress.trans h.fileAddress⟩

theorem storeBuf_parsed (i : Int) (b : UInt8) : Ensures (c.storeBuf i b) (Parsed c) :=
  .bind_any fun _ => .pure ⟨⟨rfl, rfl⟩, rfl, rfl⟩

theorem parseLineFuel_parsed : Ensures (parseLineFuel n c) fun r => Parsed c r.1 := by
  induction n generalizing c with
  | zero => exact .pure (.refl c)
  | succ n ih =>
    refine .bind_any fun temp => .ite (.ite (.pure (.refl c)) ?_) (.ite (.ite ?_ (.pure (.refl c))) ?_)
    · refine .bind_any fun b => .ite ?_ (.pure (.refl c))
      refine (storeBuf_parsed _ _).bind fun d hd => (storeBuf_parsed _ _).bind fun e he => .pure ?_
      exact (hd.trans he).trans ⟨⟨rfl, rfl⟩, rfl, rfl⟩
    · refine .bind_any fun b => .ite ?_ (.pure (.refl c))
      refine (storeBuf_parsed _ _).bind fun d hd => (storeBuf_parsed _ _).bind fun e he => .pure ?_
      exact (hd.trans he).trans ⟨⟨rfl, rfl⟩, rfl, rfl⟩
    · have hnext : Parsed c { c with checkedIdx := c.checkedIdx + 1 } := ⟨⟨rfl, rfl⟩, rfl, rfl⟩
      exact ih.mono fun r hr => hnext.trans hr

theorem checkUrl_parsed : Ensures (c.checkUrl u) fun r => Parsed c r.1 := by
  refine .bind_any fun b => .ite (.bind_any fun url => ?_) (.bind_any fun url => ?_)
  all_goals
    cases url with
    | none => exact .pure ⟨⟨rfl, rfl⟩, rfl, rfl⟩
    | some u => exact .bind_any fun b => .ite (.pure ⟨⟨rfl, rfl⟩, rfl, rfl⟩) (.pure ⟨⟨rfl, rfl⟩, rfl, rfl⟩)

theorem splitUrl_parsed : Ensures (c.splitUrl u) fun r => Parsed c r.1 := by
  refine .bind_any fun u => .bind_any fun v => ?_
  cases v with
  | none => exact .pure ⟨⟨rfl, rfl⟩, rfl, rfl⟩
  | some v =>
    refine (storeBuf_parsed _ _).bind fun d hd => .bind_any fun v => .bind_any fun b => ?_
    have hd' : Parsed c { d with version := some v } :=
      ⟨⟨hd.sockfd, hd.writeIdx⟩, hd.fileStat, hd.fileAddress⟩
    exact .ite (checkUrl_parsed.mono fun r hr => hd'.trans hr) (.pure hd')

theorem parseRequestLine_parsed : Ensures (c.parseRequestLine text) fun r => Parsed c r.1 := by
  refine .bind_any fun u => ?_
  cases u with
  | none => exact .pure ⟨⟨rfl, rfl⟩, rfl, rfl⟩
  | some u =>
    refine (storeBuf_parsed _ _).bind fun d hd => .bind_any fun b => ?_
    have hd' : ∀ m, Parsed c { d with url := some (u + 1), method := m } :=
      fun _ => ⟨⟨hd.sockfd, hd.writeIdx⟩, hd.fileStat, hd.fileAddress⟩
    exact .ite (splitUrl_parsed.mono fun r hr => (hd' .get).trans hr) (.pure (hd' d.method))

theorem parseHeaders_parsed : Ensures (c.parseHeaders text) fun r => Parsed c r.1 := by
  refine .bind_any fun b => .ite (.ite (.pure ?_) (.pure (.refl c))) ?_
  · exact ⟨⟨rfl, rfl⟩, rfl, rfl⟩
  refine .bind_any fun b => .ite ?_ ?_
  · refine .bind_any fun u => .bind_any fun b => .ite (.pure ?_) (.pure (.refl c))
    exact ⟨⟨rfl, rfl⟩, rfl, rfl⟩
  refine .bind_any fun b => .ite ?_ ?_
  · exact .bind_any fun u => .bind_any fun n => .pure ⟨⟨rfl, rfl⟩, rfl, rfl⟩
  refine .bind_any fun b => .ite ?_ (.pure (.refl c))
  exact .bind_any fun u => .pure ⟨⟨rfl, rfl⟩, rfl, rfl⟩

theorem parseContent_parsed : Ensures (c.parseContent text) fun r => Parsed c r.1 := by
  refine .bind_any fun stop => .ite ?_ (.pure (.refl c))
  exact (storeBuf_parsed _ _).bind fun d hd => .pure hd

/-! ## process_read -/

/-- How a call that ends with `code` leaves the mapping. -/
structure Opened (fs : FileSystem) (c d : HttpConn) (code : HttpCode) : Prop extends Handled c d where
  mapped : code = .fileRequest → ∃ path, d.fileAddress = fs.mmap path d.fileStat.size
  kept : code ≠ .fileRequest → d.fileAddress = c.fileAddress

theorem Opened.after {code : HttpCode} (h : Parsed c d) (h' : Opened fs d e code) : Opened fs c e code :=
  ⟨h.toHandled.trans h'.toHandled, h'.mapped, fun hne => (h'.kept hne).trans h.fileAddress⟩

theorem Parsed.opened {code : HttpCode} (h : Parsed c d) (hne : code ≠ .fileRequest) : Opened fs c d code :=
  ⟨h.toHandled, fun he => absurd he hne, fun _ => h.fileAddress⟩

theorem doRequest_opened : Ensures (c.doRequest fs) fun r => Opened fs c r.1 r.2 := by
  have hresolve : Ensures c.resolve fun d => ∃ m, d = { c with realFile := m } := by
    unfold resolve
    split
    · exact .throw
    · exact .bind_any fun url => .pure ⟨_, rfl⟩
  refine hresolve.bind fun d hd => .bind_any fun path => ?_
  obtain ⟨m, rfl⟩ := hd
  split
  · exact .pure ⟨⟨rfl, rfl⟩, nofun, fun _ => rfl⟩
  · refine .ite (.pure ⟨⟨rfl, rfl⟩, nofun, fun _ => rfl⟩) (.ite (.pure ⟨⟨rfl, rfl⟩, nofun, fun _ => rfl⟩) ?_)
    exact .pure ⟨⟨rfl, rfl⟩, fun _ => ⟨_, rfl⟩, fun h => absurd rfl h⟩

/-- An iteration of the main loop only parses, or it ends the call. -/
theorem loopBody_opened : Ensures (c.loopBody fs) fun r =>
    match r.2 with
    | .again _ => Parsed c r.1
    | .ret code => Opened fs c r.1 code := by
  have hreq : ∀ d : HttpConn, Parsed c d → Ensures (d.doRequest fs >>= fun r => pure (r.1, Next.ret r.2))
      fun r => match r.2 with
        | .again _ => Parsed c r.1
        | .ret code => Opened fs c r.1 code :=
    fun d hd => doRequest_opened.bind fun r hr => .pure (hr.after hd)
  have hnext : Parsed c c.nextLine := ⟨⟨rfl, rfl⟩, rfl, rfl⟩
  unfold loopBody
  cases c.checkState with
  | requestLine =>
    refine parseRequestLine_parsed.bind fun r hr => .ite (.pure ?_) (.pure (hnext.trans hr))
    exact (hnext.trans hr).opened (by decide)
  | header =>
    refine parseHeaders_parsed.bind fun r hr => .ite (.pure ?_) (.ite (hreq _ (hnext.trans hr)) (.pure (hnext.trans hr)))
    exact (hnext.trans hr).opened (by decide)
  | content =>
    exact parseContent_parsed.bind fun r hr => .ite (hreq _ (hnext.trans hr)) (.pure (hnext.trans hr))

theorem readLoop_opened {status : LineStatus} : Ensures (readLoop fs n c status) fun r => Opened fs c r.1 r.2 := by
  induction n generalizing c status with
  | zero => exact .throw
  | succ n ih =>
    have hcond : Ensures (c.loopCond status) fun r => Parsed c r.1 :=
      .ite (.pure (.refl c)) parseLineFuel_parsed
    refine hcond.bind fun r hr => .ite ?_ (.pure (hr.opened nofun))
    refine loopBody_opened.bind fun r' hr' => ?_
    obtain ⟨d, next⟩ := r'
    cases next with
    | ret code => exact .pure (hr'.after hr)
    | again status => exact ih.mono fun r'' hr'' => hr''.after (hr.trans hr')

theorem processRead_opened {code : HttpCode} (h : c.processRead fs = .ok (d, code)) : Opened fs c d code :=
  readLoop_opened _ h

theorem processRead_sockfd {ret : HttpCode} (h : c.processRead fs = .ok (d, ret)) : d.sockfd = c.sockfd :=
  (processRead_opened h).sockfd

/-! ## Reading and writing -/

theorem recvLoop_append (c : HttpConn) (rs : List Recv) (hle : c.readIdx ≤ readBufferSize) :
    ∃ bs, (c.recvLoop rs).1 = c.append bs ∧ c.readIdx + bs.length ≤ readBufferSize := by
  induction rs generalizing c with
  | nil => exact ⟨[], by unfold recvLoop; split <;> rfl, hle⟩
  | cons r rs ih =>
    unfold recvLoop
    split
    · exact ⟨[], rfl, hle⟩
    · rename_i hroom
      match r with
      | .eagain => exact ⟨[], rfl, hle⟩
      | .error => exact ⟨[], rfl, hle⟩
      | .data [] => exact ⟨[], rfl, hle⟩
      | .data (b :: bs) =>
        have hlen := List.length_take_le (readBufferSize - c.readIdx) (b :: bs)
        obtain ⟨bs', h, hle'⟩ := ih (c.append ((b :: bs).take (readBufferSize - c.readIdx)))
          (by simp only [HttpConn.append]; omega)
        refine ⟨(b :: bs).take (readBufferSize - c.readIdx) ++ bs', ?_, ?_⟩
        · refine h.trans ?_
          simp only [HttpConn.append, blit_append, List.length_append, Nat.add_assoc]
        · rw [List.length_append, ← Nat.add_assoc]
          exact hle'

/-- `read()` appends what it takes from the socket, and changes nothing else. -/
theorem read_append (c : HttpConn) (rs : List Recv) (hle : c.readIdx ≤ readBufferSize) :
    ∃ bs, (c.read rs).1 = c.append bs ∧ c.readIdx + bs.length ≤ readBufferSize := by
  unfold read
  split
  · exact ⟨[], rfl, hle⟩
  · exact recvLoop_append c rs hle

theorem read_parsed (c : HttpConn) (rs : List Recv) : Parsed c (c.read rs).1 := by
  by_cases hle : c.readIdx ≤ readBufferSize
  · obtain ⟨bs, h, -⟩ := read_append c rs hle
    rw [h]
    exact ⟨⟨rfl, rfl⟩, rfl, rfl⟩
  · rw [read, if_pos (by omega)]
    exact .refl c

theorem read_sockfd (c : HttpConn) (rs : List Recv) : (c.read rs).1.sockfd = c.sockfd :=
  (read_parsed c rs).sockfd

theorem processWrite_sockfd (c : HttpConn) (ret : HttpCode) : (c.processWrite ret).1.sockfd = c.sockfd := by
  obtain ⟨m, k, v, w, n, h⟩ := processWrite_same c ret
  rw [h]

theorem unmap_sockfd : c.unmap.sockfd = c.sockfd := by
  unfold unmap
  split <;> rfl

theorem unmap_fileAddress : c.unmap.fileAddress = 0 := by
  unfold unmap
  split
  · rfl
  · rename_i h
    simpa using h

/-- A call of `write()` on a response asks for another one, or it unmaps the file. -/
theorem writeLoop_conn {a b : Int} {os : List Writev} {r : WriteCall} (h : writeLoop mem c a b os = some r) :
    (r.armed = some .epollout ∧ r.conn = c ∧ r.ret = true) ∨
      (r.armed ≠ some .epollout ∧ (r.ret = true ∧ r.conn = c.unmap.init ∨ r.ret = false ∧ r.conn = c.unmap)) := by
  induction os generalizing a b r with
  | nil => cases h
  | cons o os ih =>
    cases o with
    | eagain =>
      cases h
      exact .inl ⟨rfl, rfl, rfl⟩
    | error =>
      cases h
      exact .inr ⟨(by rintro ⟨⟩), .inr ⟨rfl, rfl⟩⟩
    | sent n =>
      simp only [writeLoop] at h
      split at h
      · cases h
        right
        unfold endWrite
        dsimp only
        split
        · exact ⟨(by rintro ⟨⟩), .inl ⟨rfl, rfl⟩⟩
        · exact ⟨(by rintro ⟨⟩), .inr ⟨rfl, rfl⟩⟩
      · obtain ⟨r', hr', rfl⟩ := Option.map_eq_some_iff.mp h
        have := ih hr'
        exact this

theorem write_conn {os : List Writev} {r : WriteCall} (hidx : c.writeIdx ≠ 0) (h : c.write mem os = some r) :
    (r.armed = some .epollout ∧ r.conn = c ∧ r.ret = true) ∨
      (r.armed ≠ some .epollout ∧ (r.ret = true ∧ r.conn = c.unmap.init ∨ r.ret = false ∧ r.conn = c.unmap)) := by
  rw [write, if_neg hidx] at h
  exact writeLoop_conn h

/-- A call asks for another one exactly if the last `writev` in it has returned `EAGAIN`. -/
theorem writeLoop_waits_iff {a b : Int} {os : List Writev} {r : WriteCall} (h : writeLoop mem c a b os = some r)
    (hrest : r.rest = []) : r.armed = some .epollout ↔ os.getLast? = some .eagain := by
  induction os generalizing a b r with
  | nil => cases h
  | cons o os ih =>
    cases o with
    | eagain =>
      cases h
      obtain rfl : os = [] := hrest
      simp
    | error =>
      cases h
      obtain rfl : os = [] := hrest
      simp
    | sent n =>
      simp only [writeLoop] at h
      split at h
      · cases h
        rw [endWrite_rest] at hrest
        subst hrest
        simp
      · obtain ⟨r', hr', rfl⟩ := Option.map_eq_some_iff.mp h
        cases os with
        | nil => cases hr'
        | cons o' os =>
          have := ih hr' hrest
          exact this

theorem write_waits_iff {os : List Writev} {r : WriteCall} (hidx : c.writeIdx ≠ 0) (h : c.write mem os = some r)
    (hrest : r.rest = []) : r.armed = some .epollout ↔ os.getLast? = some .eagain := by
  rw [write, if_neg hidx] at h
  exact writeLoop_waits_iff h hrest

theorem write_sockfd {os : List Writev} {r : WriteCall} (h : c.write mem os = some r) :
    r.conn.sockfd = c.sockfd := by
  by_cases hidx : c.writeIdx = 0
  · rw [write, if_pos hidx] at h
    cases h
    rfl
  · rcases write_conn hidx h with ⟨-, hc, -⟩ | ⟨-, ⟨-, hc⟩ | ⟨-, hc⟩⟩
    · rw [hc]
    · rw [hc]
      exact unmap_sockfd
    · rw [hc]
      exact unmap_sockfd

/-- `write()` asks for another event whenever it does not ask for the end. -/
theorem writeLoop_armed {mem : Int → UInt8} {a b : Int} {os : List Writev} {r : WriteCall}
    (h : writeLoop mem c a b os = some r) (hret : r.ret = true) : ∃ ev, r.armed = some ev := by
  induction os generalizing a b r with
  | nil => cases h
  | cons o os ih =>
    cases o with
    | eagain =>
      cases h
      exact ⟨_, rfl⟩
    | error =>
      cases h
      cases hret
    | sent n =>
      simp only [writeLoop] at h
      split at h
      · cases h
        exact ⟨_, endWrite_armed _ _⟩
      · obtain ⟨r', hr', rfl⟩ := Option.map_eq_some_iff.mp h
        exact (ih hr' hret : ∃ ev, r'.armed = some ev)

theorem write_armed {mem : Int → UInt8} {os : List Writev} {r : WriteCall}
    (h : c.write mem os = some r) (hret : r.ret = true) : ∃ ev, r.armed = some ev := by
  unfold write at h
  split at h
  · cases h
    exact ⟨_, rfl⟩
  · exact writeLoop_armed h hret

end HttpConn

end Http
