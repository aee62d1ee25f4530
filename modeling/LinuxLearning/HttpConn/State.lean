-- SUMMARY: The http_conn object: its constants and fields, initialisation, and the loop that drains the socket into the read buffer.
import LinuxLearning.Common.CString

/-!
# The connection object

`HttpConn` has the members of the class `http_conn` without their `m_` prefix. A
pointer into the read buffer is an offset, and a null pointer is `none`.
-/

namespace Http

open Memory CString

def filenameLen : Nat := 200
def readBufferSize : Nat := 2048
def writeBufferSize : Nat := 1024

inductive Method where
  | get | post | head | put | delete | trace | options | connect | patch
deriving Repr, DecidableEq

inductive CheckState where
  | requestLine | header | content
deriving Repr, DecidableEq

inductive HttpCode where
  | noRequest | getRequest | badRequest | noResource | forbiddenRequest
  | fileRequest | internalError | closedConnection
deriving Repr, DecidableEq

inductive LineStatus where
  | lineOk | lineBad | lineOpen
deriving Repr, DecidableEq

/-- The part of `struct stat` that the server looks at: `st_mode & S_IROTH`,
    `S_ISDIR(st_mode)` and `st_size`. -/
structure Stat where
  iroth : Bool
  isdir : Bool
  size : Nat
deriving Repr, DecidableEq

/-- Where an `iovec` points: the write buffer of the object, or an address. -/
inductive IovBase where
  | writeBuf
  | addr (a : Int)
deriving Repr, DecidableEq

structure Iovec where
  base : IovBase
  len : Nat
deriving Repr, DecidableEq

structure HttpConn where
  sockfd : Int
  readBuf : Mem
  readIdx : Nat
  checkedIdx : Nat
  startLine : Nat
  writeBuf : Mem
  writeIdx : Nat
  checkState : CheckState
  method : Method
  realFile : Mem
  url : Option Nat
  version : Option Nat
  host : Option Nat
  contentLength : Int
  linger : Bool
  fileAddress : Int
  fileStat : Stat
  iv0 : Iovec
  iv1 : Iovec
  ivCount : Nat

namespace HttpConn

/-- An object that was never used. -/
def blank : HttpConn where
  sockfd := -1
  readBuf := fun _ => 0
  readIdx := 0
  checkedIdx := 0
  startLine := 0
  writeBuf := fun _ => 0
  writeIdx := 0
  checkState := .requestLine
  method := .get
  realFile := fun _ => 0
  url := none
  version := none
  host := none
  contentLength := 0
  linger := false
  fileAddress := 0
  fileStat := ⟨false, false, 0⟩
  iv0 := ⟨.writeBuf, 0⟩
  iv1 := ⟨.writeBuf, 0⟩
  ivCount := 0

/-- `init()`: everything but the socket, the mapping, the stat buffer and the
    iovecs is reset. -/
def init (c : HttpConn) : HttpConn :=
  { c with
    checkState := .requestLine
    linger := false
    method := .get
    url := none
    version := none
    contentLength := 0
    host := none
    startLine := 0
    checkedIdx := 0
    readIdx := 0
    writeIdx := 0
    readBuf := fun i => if i < readBufferSize then 0 else c.readBuf i
    writeBuf := fun i => if i < writeBufferSize then 0 else c.writeBuf i
    realFile := fun i => if i < filenameLen then 0 else c.realFile i }

/-- `init(sockfd, addr)` on the fields of the object. -/
def initSock (c : HttpConn) (sockfd : Int) : HttpConn :=
  ({ c with sockfd := sockfd }).init

/-- One answer of `recv` on a non-blocking socket. `data []` is the answer 0 of a
    closed peer. -/
inductive Recv where
  | data (bs : List UInt8)
  | eagain
  | error
deriving Repr, DecidableEq

/-- The bytes `bs` appended at the end of the data read so far. -/
def append (c : HttpConn) (bs : List UInt8) : HttpConn :=
  { c with readBuf := blit c.readBuf c.readIdx bs, readIdx := c.readIdx + bs.length }

/-- The loop of `read()` over the answers of `recv`, with no answer left standing
    for `EAGAIN`. A `recv` that is asked for 0 bytes returns 0, and bytes beyond
    those asked for stay in the socket. -/
def recvLoop (c : HttpConn) (rs : List Recv) : HttpConn × Bool :=
  if readBufferSize ≤ c.readIdx then (c, false)
  else
    match rs with
    | [] => (c, true)
    | .eagain :: _ => (c, true)
    | .error :: _ => (c, false)
    | .data [] :: _ => (c, false)
    | .data bs :: rs => recvLoop (c.append (bs.take (readBufferSize - c.readIdx))) rs

def read (c : HttpConn) (rs : List Recv) : HttpConn × Bool :=
  if readBufferSize ≤ c.readIdx then (c, false) else recvLoop c rs

end HttpConn

end Http
