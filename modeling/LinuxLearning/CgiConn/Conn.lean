-- SUMMARY: The connection of the CGI server: the buffer, the read-and-scan loop of cgi_conn::process, and its calls over the life of the connection.
import LinuxLearning.Common.CString

/-!
# The connection of the CGI server

`process` reads until `recv` gives nothing more, scanning what each `recv` adds for a line
end. With one, it checks for the program, forks, and the child becomes the program. The
system calls that matter to the client are returned in their order.
-/

namespace Cgi

open Memory CString

def bufferSize : Nat := 1024

abbrev cr : UInt8 := 13
abbrev lf : UInt8 := 10

/-- `STDOUT_FILENO`. -/
def stdoutFileno : Int := 1

structure CgiConn where
  sockfd : Int
  buf : Mem
  readIdx : Nat

/-- What `recv` returns: bytes, 0, or -1 with `errno` at `EAGAIN` or not. -/
inductive Recv where
  | data (bs : List UInt8)
  | closed
  | eagain
  | error
deriving Repr, DecidableEq

/-- A system call, with what it returns. `recv` has the size that it is called with, and
    `removefd` takes the socket out of the epoll table and closes it. -/
inductive Call where
  | recv (fd : Int) (n : Int) (ret : Recv)
  | access (name : List UInt8) (found : Bool)
  | fork (ret : Int)
  | removefd (fd : Int)
  | close (fd : Int)
  | dup (fd : Int)
  | execl (path : List UInt8)
  | exit
deriving Repr, DecidableEq

/-- What the calls of one `process` return. -/
structure Answers where
  recvs : List Recv
  found : List UInt8 → Bool
  pid : Int

namespace CgiConn

/-- `init(epollfd, sockfd, addr)` on the fields of the object. -/
def init (c : CgiConn) (sockfd : Int) : CgiConn where
  sockfd := sockfd
  buf := fun i => if i < bufferSize then 0 else c.buf i
  readIdx := 0

/-- The bytes that `recv` writes at the end of those read before. -/
def fill (c : CgiConn) (bs : List UInt8) : Except Fault CgiConn :=
  if c.readIdx + bs.length ≤ bufferSize then
    return { c with buf := blit c.buf c.readIdx bs, readIdx := c.readIdx + bs.length }
  else throw (.outOfBounds bufferSize)

/-- The test of the scan: a line end ends at `idx`. -/
def endsLine (m : Mem) (idx : Nat) : Except Fault Bool := do
  if 1 ≤ idx then
    if (← load bufferSize m (idx - 1)) = cr then
      return (← load bufferSize m idx) == lf
    else return false
  else return false

/-- The scan from `idx` on over `n` bytes. -/
def scanLoop (m : Mem) : Nat → Nat → Except Fault Nat
  | 0, idx => return idx
  | n + 1, idx => do
    if ← endsLine m idx then return idx
    else scanLoop m n (idx + 1)

/-- What follows a line end. In the child, `fork` returns 0. -/
def act (c : CgiConn) (a : Answers) : Except Fault (List Call) := do
  let fileName ← cstring bufferSize c.buf 0
  if a.found fileName = false then return [.access fileName false, .removefd c.sockfd]
  else if a.pid = -1 then return [.access fileName true, .fork a.pid, .removefd c.sockfd]
  else if 0 < a.pid then return [.access fileName true, .fork a.pid, .removefd c.sockfd]
  else
    let path ← cstring bufferSize c.buf 0
    return [.access fileName true, .fork a.pid, .close stdoutFileno, .dup c.sockfd, .execl path, .exit]

/-- The loop of `process()`, with no answer of `recv` left standing for `EAGAIN`. -/
def processLoop (a : Answers) : CgiConn → List Recv → Except Fault (CgiConn × List Call)
  | c, .data bs :: recvs => do
    let call := Call.recv c.sockfd (bufferSize - 1 - c.readIdx) (.data bs)
    let idx := c.readIdx
    let c ← c.fill bs
    -- the content is printed
    let _ ← cstring bufferSize c.buf 0
    let idx ← scanLoop c.buf bs.length idx
    if idx = c.readIdx then
      let (c, calls) ← processLoop a c recvs
      return (c, call :: calls)
    else
      let m ← store bufferSize c.buf (idx - 1) 0
      let c := { c with buf := m }
      let calls ← c.act a
      return (c, call :: calls)
  | c, .closed :: _ =>
    return (c, [.recv c.sockfd (bufferSize - 1 - c.readIdx) .closed, .removefd c.sockfd])
  | c, .error :: _ =>
    return (c, [.recv c.sockfd (bufferSize - 1 - c.readIdx) .error, .removefd c.sockfd])
  | c, .eagain :: _ => return (c, [.recv c.sockfd (bufferSize - 1 - c.readIdx) .eagain])
  | c, [] => return (c, [.recv c.sockfd (bufferSize - 1 - c.readIdx) .eagain])

def process (c : CgiConn) (a : Answers) : Except Fault (CgiConn × List Call) :=
  processLoop a c a.recvs

end CgiConn

/-- `recv` returns no more bytes than it is asked for, and some if it returns bytes. -/
def Fits : Int → List Recv → Prop
  | n, .data bs :: recvs => bs ≠ [] ∧ bs.length ≤ n ∧ Fits (n - bs.length) recvs
  | _, _ => True

/-- A connection in the process that serves it, with the calls made so far. -/
structure State where
  conn : CgiConn
  /-- The socket is in the epoll table. -/
  registered : Bool
  exited : Bool
  calls : List Call

/-- An accepted connection, in an object that may have been used before. -/
def State.init (c : CgiConn) (sockfd : Int) : State where
  conn := c.init sockfd
  registered := true
  exited := false
  calls := []

/-- `run_child` calls `process` for an event of a socket in the epoll table. -/
inductive Step : State → Answers → State → Prop where
  | process {st : State} {a : Answers} {conn : CgiConn} {calls : List Call} :
      st.registered = true → st.exited = false →
      Fits (bufferSize - 1 - st.conn.readIdx) a.recvs → st.conn.process a = .ok (conn, calls) →
      Step st a ⟨conn, Call.removefd st.conn.sockfd ∉ calls, Call.exit ∈ calls, st.calls ++ calls⟩

end Cgi
