-- SUMMARY: The CGI server as a process pool runs it: each connection that a child accepts is served as if it were the only one.
import LinuxLearning.CgiConn.Requests
import LinuxLearning.ProcessPool.ChildService

/-!
# The CGI connections of a child

`cgi_conn` is the class of clients of the process pool. The child calls `process` of one
connection between those of others, takes signals, and uses descriptors and objects again. What
each client sees is a run of its own connection.
-/

namespace Cgi

open Memory CString Transition ProcessPool.RunChild

variable {c : CgiConn} {fd : Nat} {obj : CgiConn} {log calls : List Call} {a : Answers}

/-- `cgi_conn`. In the process that called it `fork` returns the new process or -1, and the new
    process leaves `process` no more. -/
abbrev cgiClient : ClientClass where
  Obj := CgiConn
  Call := Call
  Answers := Answers
  init := CgiConn.init
  process := CgiConn.process
  Admits c a := Fits (bufferSize - 1 - c.readIdx) a.recvs ∧ (a.pid = -1 ∨ 0 < a.pid)
  closes
    | .removefd fd => some fd
    | _ => none
  forks
    | .fork pid => 0 < pid
    | _ => false

theorem mem_closed {x : Int} {calls : List cgiClient.Call} : x ∈ cgiClient.closed calls ↔ Call.removefd x ∈ calls := by
  simp only [ClientClass.closed, cgiClient, List.mem_filterMap]
  constructor
  · rintro ⟨call, hmem, hx⟩
    cases call with
    | removefd fd =>
      cases hx
      exact hmem
    | _ => cases hx
  · exact fun hmem => ⟨_, hmem, rfl⟩

namespace CgiConn

/-- Only the new process exits. -/
theorem act_no_exit (hpid : a.pid = -1 ∨ 0 < a.pid) : Ensures (c.act a) fun calls => .exit ∉ calls := by
  unfold act
  refine Ensures.bind_any fun fileName => ?_
  split
  · exact .pure (by simp)
  · split
    · exact .pure (by simp)
    · split
      · exact .pure (by simp)
      · rename_i hne hpos
        exact absurd hpid (not_or.mpr ⟨hne, hpos⟩)

theorem processLoop_no_exit (hpid : a.pid = -1 ∨ 0 < a.pid) {recvs : List Recv} :
    Ensures (c.processLoop a recvs) fun r => .exit ∉ r.2 := by
  induction recvs generalizing c with
  | nil => exact .pure (by simp)
  | cons ret recvs ih =>
    cases ret with
    | closed => exact .pure (by simp)
    | error => exact .pure (by simp)
    | eagain => exact .pure (by simp)
    | data bs =>
      refine Ensures.bind_any fun d => Ensures.bind_any fun _ => Ensures.bind_any fun idx => ?_
      refine Ensures.ite ?_ ?_
      · exact ih.bind fun r hr => .pure (by simpa using hr)
      · exact Ensures.bind_any fun m => (act_no_exit hpid).bind fun calls hcalls => .pure (by simpa using hcalls)

end CgiConn

/-- The calls of a connection close its own socket only. -/
theorem CgiConn.Leaves.removes {fd : Int} {before : List Call} {r : CgiConn × List Call}
    (h : CgiConn.Leaves fd before r) {x : Int} (hx : .removefd x ∈ r.2) : x = fd := by
  obtain ⟨s, -, -, -, ⟨-, hreads⟩ | hends⟩ := h
  · exact absurd (List.mem_append_right _ hx) (hreads.not_mem (by simp))
  · have hmem : .removefd x ∈ before ++ r.2 := List.mem_append_right _ hx
    generalize before ++ r.2 = all at hends hmem
    cases hends with
    | closed hreads _ =>
      have hnot : Call.removefd x ∉ _ := hreads.not_mem (by simp)
      simpa [hnot] using hmem
    | acted hreads _ hacts =>
      have hnot : Call.removefd x ∉ _ := hreads.not_mem (by simp)
      have hact := (List.mem_append.mp hmem).resolve_left hnot
      cases hacts <;> simp at hact <;> exact hact

/-- What an object of a child goes through is a run of the connection. -/
theorem session_run {obj : cgiClient.Obj} {log : List cgiClient.Call} (h : Session cgiClient fd obj log) :
    ∃ (c : CgiConn) (answers : List Answers), Run Step (.init c fd) answers ⟨obj, .removefd (fd : Int) ∉ log, false, log⟩ := by
  induction h with
  | accepted obj => exact ⟨obj, [], .nil _⟩
  | @process obj obj' log calls a hsession hopen ha hrun ih =>
    obtain ⟨c, answers, hruns⟩ := ih
    rw [mem_closed] at hopen
    obtain ⟨-, hfd, -⟩ := Run.invariant (I := Inv fd) (fun _ _ _ h hstep => hstep.inv h) hruns (init_inv c fd)
    have hexit : .exit ∉ calls := CgiConn.processLoop_no_exit ha.2 _ hrun
    refine ⟨c, answers ++ [a], hruns.snoc ?_⟩
    have hstep : Step ⟨obj, .removefd (fd : Int) ∉ log, false, log⟩ a _ := .process (by simpa using hopen) rfl ha.1 hrun
    simp only at hfd
    simpa [hfd, hopen, hexit] using hstep

theorem cgiClient_lawful : cgiClient.Lawful := by
  intro fd obj log a hsession hopen ha
  rw [mem_closed] at hopen
  obtain ⟨c, answers, hruns⟩ := session_run hsession
  obtain ⟨s, hfd, hread, -, ⟨hfilled, hreads⟩ | ⟨-, hover⟩⟩ :=
    Run.invariant (I := Inv fd) (fun _ _ _ h hstep => hstep.inv h) hruns (init_inv c fd)
  · have hfits : Fits (room s) a.recvs := by
      rw [room, ← hread]
      exact ha.1
    obtain ⟨r, hrun, hleaves⟩ := CgiConn.process_ok hfilled hreads hfits
    exact ⟨r.1, r.2, hrun, fun x hx => hleaves.removes (mem_closed.mp hx)⟩
  · simp [hopen] at hover

/-- Connection `k` of a child is served as if there were no other: the calls made for it are those
    of a run of its own, which goes on in the object at its descriptor as long as the socket is
    registered. -/
def ServedAlone (st : ProcessPool.RunChild.State cgiClient) (k : Nat) (conn : Conn cgiClient) : Prop :=
  ∃ (c : CgiConn) (answers : List Answers) (s : State), Run Step (.init c conn.fd) answers s ∧
    s.calls = conn.calls ∧ (s.registered = true ↔ st.table conn.fd = some k) ∧
    (s.registered = true → st.users conn.fd = s.conn) ∧
    ∀ stream, received conn.calls <+: stream → Serves conn.fd stream s

theorem servedAlone {pipefd sigfd k : Nat} {st : ProcessPool.RunChild.State cgiClient} {conn : Conn cgiClient}
    (h : Serving pipefd sigfd st) (hget : st.conns[k]? = some conn) : ServedAlone st k conn := by
  obtain ⟨fd, log⟩ := conn
  -- a session in the object `obj` is a run that ends there
  have hserves : ∀ obj, Session cgiClient fd obj log →
      (Call.removefd (fd : Int) ∉ log ↔ st.table fd = some k) →
      (Call.removefd (fd : Int) ∉ log → st.users fd = obj) → ServedAlone st k ⟨fd, log⟩ := by
    intro obj hsession htable husers
    obtain ⟨c, answers, hrun⟩ := session_run hsession
    have hinv := Run.invariant (I := Inv fd) (fun _ _ _ h hstep => hstep.inv h) hrun (init_inv c fd)
    exact ⟨c, answers, _, hrun, rfl, by simpa using htable, by simpa using husers, fun stream => hinv.serves⟩
  by_cases hopen : (fd : Int) ∈ cgiClient.closed log
  · obtain ⟨obj, hsession⟩ := h.session k _ hget
    have hmem := mem_closed.mp hopen
    refine hserves obj hsession (iff_of_false (not_not.mpr hmem) fun hk => ?_) fun hnot => absurd hmem hnot
    obtain ⟨calls, hget', hopen', -⟩ := h.owner fd k hk
    cases hget.symm.trans hget'
    exact hopen' hopen
  · have hk := h.held k _ hget hopen
    obtain ⟨calls, hget', -, hsession⟩ := h.owner fd k hk
    cases hget.symm.trans hget'
    exact hserves _ hsession (iff_of_true (mem_closed.not.mp hopen) hk) fun _ => rfl

/-- In every run of a child, each connection it has accepted is served as if it were the only one,
    whatever other connections and signals come in between and whichever descriptors are used
    again. No call touches an object of a socket that is closed, or faults. -/
theorem child_serves {cap pipefd sigfd : Nat} {users : Nat → CgiConn} {acts : List Action}
    {st : ProcessPool.RunChild.State cgiClient}
    (hrun : Run (ProcessPool.RunChild.Step cap pipefd sigfd) (.init users) acts st)
    (hbound : ∀ fd, .accept (some fd) ∈ acts → fd < userPerProcess) :
    st.phase ≠ .crashed ∧
    (∀ fd events, st.phase = .handling ((fd, true) :: events) → fd ≠ pipefd → fd ≠ sigfd →
      ∃ k, st.table fd = some k) ∧
    ∀ k conn, st.conns[k]? = some conn → ServedAlone st k conn := by
  have h := run_serving cgiClient_lawful hrun hbound
  refine ⟨h.alive, fun fd events hphase hpipe hsig => ?_, fun k conn hget => servedAlone h hget⟩
  have hreg := h.registered (fd, true) (by rw [hphase]; exact List.mem_cons_self)
  exact Option.ne_none_iff_exists'.mp ((hreg.resolve_left hpipe).resolve_left hsig)

/-- A request of one line, and the calls that are made for it. -/
def request : Answers where
  recvs := [.data (ascii "ls\r\n")]
  found _ := true
  pid := 5

def requestCalls : List Call :=
  [.recv 7 1023 (.data (ascii "ls\r\n")), .access (ascii "ls") true, .fork 5, .removefd 7]

theorem process_request : ∃ c, (CgiConn.init ⟨0, fun _ => 0, 0⟩ 7).process request = .ok (c, requestCalls) :=
  ⟨_, rfl⟩

/-- A child takes a connection on descriptor 7, serves its request, and waits again. -/
theorem request_run : ∃ st : ProcessPool.RunChild.State cgiClient,
    Run (ProcessPool.RunChild.Step (K := cgiClient) 8 3 4) (.init fun _ => ⟨0, fun _ => 0, 0⟩)
      [.notify, .wait [(3, true)], .recvPipe true, .accept (some 7), .done, .wait [(7, true)], .process 7, .done] st ∧
    st.phase = .wait ∧ st.stop = false ∧ st.table 7 = none ∧ (∀ x, st.ready x = false) ∧
    st.conns = [⟨7, requestCalls⟩] ∧ st.unread = [] ∧ st.running = 1 ∧ st.zombies = 0 := by
  obtain ⟨c, hprocess⟩ := process_request
  have hadmits : cgiClient.Admits (CgiConn.init ⟨0, fun _ => 0, 0⟩ 7) request :=
    ⟨⟨by decide, by decide, trivial⟩, .inr (by decide)⟩
  have hlt : 7 < userPerProcess := by simp [userPerProcess]
  let st : ProcessPool.RunChild.State cgiClient := .init fun _ => ⟨0, fun _ => 0, 0⟩
  have hunused : Unused 3 4 st 7 := by
    rintro (h | h | h)
    · cases h
    · cases h
    · exact h rfl
  obtain ⟨ready, hconnect, hready, hother⟩ := @connect_run cgiClient 8 3 4 st 7 rfl rfl (by decide) hunused hlt
  let st' := { st.accepted 7 true with ready := ready }
  have hserve := @process_run cgiClient 8 3 4 st' 7 c requestCalls request rfl rfl (by rintro ⟨⟩) hready
    (by decide) (by decide) hlt hadmits hprocess
  have hrun := Run.append_iff.mpr ⟨_, hconnect, hserve⟩
  refine ⟨_, hrun, rfl, rfl, ?_, fun x => ?_, rfl, rfl, rfl, rfl⟩
  · change (st'.processed 7 c requestCalls).table 7 = none
    apply processed_closed
    rw [mem_closed]
    simp [requestCalls]
  · by_cases hx : x = 7
    · simp [hx]
    · have hfalse : st'.ready x ≠ true := fun h => by cases hother x hx h
      simp [hfalse]

/-- A client sends a request on descriptor 7, and the next client gets the same one. -/
theorem child_serves_reused : ∃ st : ProcessPool.RunChild.State cgiClient,
    (st.phase ≠ .crashed ∧
      (∀ fd events, st.phase = .handling ((fd, true) :: events) → fd ≠ 3 → fd ≠ 4 → ∃ k, st.table fd = some k) ∧
      ∀ k conn, st.conns[k]? = some conn → ServedAlone st k conn) ∧
    st.conns = [⟨7, requestCalls⟩, ⟨7, []⟩] := by
  obtain ⟨st, hrun, hphase, hstop, htable, -, hconns, -⟩ := request_run
  have hlt : 7 < userPerProcess := by simp [userPerProcess]
  have hunused : Unused 3 4 st 7 := by
    rintro (h | h | h)
    · cases h
    · cases h
    · exact h htable
  obtain ⟨ready, hconnect, -⟩ := @connect_run cgiClient 8 3 4 st 7 hphase hstop (by decide) hunused hlt
  refine ⟨_, child_serves (Run.append_iff.mpr ⟨st, hrun, hconnect⟩) fun fd hmem => ?_, ?_⟩
  · obtain rfl : fd = 7 := by simpa using hmem
    exact hlt
  · exact congrArg (· ++ [⟨7, []⟩]) hconns

end Cgi
