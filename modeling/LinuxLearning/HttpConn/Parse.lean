-- SUMMARY: The request parser of http_conn: parse_line, parse_request_line, parse_headers, parse_content, do_request and the main loop process_read.
import LinuxLearning.HttpConn.State

/-!
# Parsing a request

Every access to `m_read_buf` goes through the checked `load` and `store` of
`CString`, so a run of the parser that leaves the buffer is a `Fault`. The main
loop is cut at the two places where the source can leave it: `loopCond` evaluates
the condition of the `while`, and `loopBody` is its body.
-/

namespace Http

open Memory CString

abbrev cr : UInt8 := 13
abbrev lf : UInt8 := 10
abbrev blanks : List UInt8 := [32, 9]

/-- What `stat`, and `open` with `mmap`, answer for a path. `stat` answers `none`
    where the call fails, and `mmap` the value of `MAP_FAILED` where it does. -/
structure FileSystem where
  stat : List UInt8 → Option Stat
  mmap : List UInt8 → Nat → Int

def docRoot : List UInt8 := ascii "/var/www/html"

namespace HttpConn

/-- Loads and stores of `m_read_buf`. -/
def loadBuf (c : HttpConn) (i : Nat) : Except Fault UInt8 :=
  load readBufferSize c.readBuf i

def storeBuf (c : HttpConn) (i : Int) (b : UInt8) : Except Fault HttpConn := do
  return { c with readBuf := ← store readBufferSize c.readBuf i b }

-- ---------------------------------------------------------------------------
-- parse_line
-- ---------------------------------------------------------------------------

/-- The `for` loop of `parse_line`, with `m_read_idx - m_checked_idx` as fuel. -/
def parseLineFuel : Nat → HttpConn → Except Fault (HttpConn × LineStatus)
  | 0, c => return (c, .lineOpen)
  | n + 1, c => do
    let temp ← c.loadBuf c.checkedIdx
    if temp = cr then
      if c.checkedIdx + 1 = c.readIdx then return (c, .lineOpen)
      else if (← c.loadBuf (c.checkedIdx + 1)) = lf then
        let c ← c.storeBuf c.checkedIdx 0
        let c ← c.storeBuf (c.checkedIdx + 1 : Nat) 0
        return ({ c with checkedIdx := c.checkedIdx + 2 }, .lineOk)
      else return (c, .lineBad)
    else if temp = lf then
      if 1 < c.checkedIdx then
        if (← c.loadBuf (c.checkedIdx - 1)) = cr then
          let c ← c.storeBuf (c.checkedIdx - 1 : Nat) 0
          let c ← c.storeBuf c.checkedIdx 0
          return ({ c with checkedIdx := c.checkedIdx + 1 }, .lineOk)
        else return (c, .lineBad)
      else return (c, .lineBad)
    else parseLineFuel n { c with checkedIdx := c.checkedIdx + 1 }

def parseLine (c : HttpConn) : Except Fault (HttpConn × LineStatus) :=
  parseLineFuel (c.readIdx - c.checkedIdx) c

-- ---------------------------------------------------------------------------
-- parse_request_line
-- ---------------------------------------------------------------------------

/-- The end of `parse_request_line`: the URL at `u` must be absolute, after an
    optional scheme and authority. -/
def checkUrl (c : HttpConn) (u : Nat) : Except Fault (HttpConn × HttpCode) := do
  let url ←
    if ← strncasecmp readBufferSize c.readBuf u (ascii "http://") 7 then
      strchr readBufferSize c.readBuf (u + 7) 47
    else pure (some u)
  let c := { c with url := url }
  match url with
  | none => return (c, .badRequest)
  | some u =>
    if (← c.loadBuf u) = 47 then return ({ c with checkState := .header }, .noRequest)
    else return (c, .badRequest)

/-- The middle of `parse_request_line`, from the blank at `u` that ends the method. -/
def splitUrl (c : HttpConn) (u : Nat) : Except Fault (HttpConn × HttpCode) := do
  let u ← strspn readBufferSize c.readBuf u blanks
  let c := { c with url := some u }
  match ← strpbrk readBufferSize c.readBuf u blanks with
  | none => return ({ c with version := none }, .badRequest)
  | some v =>
    let c ← c.storeBuf v 0
    let v ← strspn readBufferSize c.readBuf (v + 1) blanks
    let c := { c with version := some v }
    if ← strcasecmp readBufferSize c.readBuf v (ascii "HTTP/1.1") then c.checkUrl u
    else return (c, .badRequest)

def parseRequestLine (c : HttpConn) (text : Nat) : Except Fault (HttpConn × HttpCode) := do
  match ← strpbrk readBufferSize c.readBuf text blanks with
  | none => return ({ c with url := none }, .badRequest)
  | some u =>
    let c ← c.storeBuf u 0
    let c := { c with url := some (u + 1) }
    if ← strcasecmp readBufferSize c.readBuf text (ascii "GET") then
      splitUrl { c with method := .get } (u + 1)
    else return (c, .badRequest)

-- ---------------------------------------------------------------------------
-- parse_headers
-- ---------------------------------------------------------------------------

def parseHeaders (c : HttpConn) (text : Nat) : Except Fault (HttpConn × HttpCode) := do
  if (← c.loadBuf text) = 0 then
    if c.contentLength ≠ 0 then return ({ c with checkState := .content }, .noRequest)
    else return (c, .getRequest)
  else if ← strncasecmp readBufferSize c.readBuf text (ascii "Connection:") 11 then
    let text ← strspn readBufferSize c.readBuf (text + 11) blanks
    if ← strcasecmp readBufferSize c.readBuf text (ascii "keep-alive") then
      return ({ c with linger := true }, .noRequest)
    else return (c, .noRequest)
  -- 15 counts the terminator of the 14 letters, and the skip goes past it
  else if ← strncasecmp readBufferSize c.readBuf text (ascii "Content-Length") 15 then
    let text ← strspn readBufferSize c.readBuf (text + 15) blanks
    let n ← atol readBufferSize c.readBuf text
    return ({ c with contentLength := toInt32 n }, .noRequest)
  else if ← strncasecmp readBufferSize c.readBuf text (ascii "Host:") 5 then
    let text ← strspn readBufferSize c.readBuf (text + 5) blanks
    return ({ c with host := some text }, .noRequest)
  else return (c, .noRequest)

-- ---------------------------------------------------------------------------
-- parse_content and do_request
-- ---------------------------------------------------------------------------

def parseContent (c : HttpConn) (text : Nat) : Except Fault (HttpConn × HttpCode) := do
  let stop ← addInt c.contentLength c.checkedIdx
  if stop ≤ c.readIdx then
    return (← c.storeBuf (text + c.contentLength) 0, .getRequest)
  else return (c, .noRequest)

/-- `m_real_file` after the two copies of `do_request`. -/
def resolve (c : HttpConn) : Except Fault HttpConn := do
  match c.url with
  | none => throw .nullPointer
  | some u =>
    let url ← strncpySrc readBufferSize c.readBuf u (filenameLen - docRoot.length - 1)
    return { c with realFile := blit (blit c.realFile 0 (docRoot ++ [0])) docRoot.length url }

def doRequest (fs : FileSystem) (c : HttpConn) : Except Fault (HttpConn × HttpCode) := do
  let c ← c.resolve
  let path ← cstring filenameLen c.realFile 0
  match fs.stat path with
  | none => return (c, .noResource)
  | some st =>
    let c := { c with fileStat := st }
    if !st.iroth then return (c, .forbiddenRequest)
    else if st.isdir then return (c, .badRequest)
    else return ({ c with fileAddress := fs.mmap path st.size }, .fileRequest)

-- ---------------------------------------------------------------------------
-- process_read
-- ---------------------------------------------------------------------------

/-- The condition of the main loop: the line status after evaluating it. The loop
    goes on exactly when that is `lineOk`. -/
def loopCond (c : HttpConn) (status : LineStatus) : Except Fault (HttpConn × LineStatus) :=
  if c.checkState = .content ∧ status = .lineOk then return (c, .lineOk) else c.parseLine

/-- How an iteration of the main loop ends: in a `return`, or at the condition
    again with a line status. -/
inductive Next where
  | ret (code : HttpCode)
  | again (status : LineStatus)
deriving Repr, DecidableEq

/-- `m_start_line = m_checked_idx`. -/
def nextLine (c : HttpConn) : HttpConn :=
  { c with startLine := c.checkedIdx }

-- The three cases of the `switch`; the enumeration leaves no `default`.
def onRequestLine (c : HttpConn) (text : Nat) : Except Fault (HttpConn × Next) := do
  let (c, ret) ← c.parseRequestLine text
  if ret = .badRequest then return (c, .ret .badRequest) else return (c, .again .lineOk)

def onHeader (fs : FileSystem) (c : HttpConn) (text : Nat) : Except Fault (HttpConn × Next) := do
  let (c, ret) ← c.parseHeaders text
  if ret = .badRequest then return (c, .ret .badRequest)
  else if ret = .getRequest then
    let (c, ret) ← c.doRequest fs
    return (c, .ret ret)
  else return (c, .again .lineOk)

def onContent (fs : FileSystem) (c : HttpConn) (text : Nat) : Except Fault (HttpConn × Next) := do
  let (c, ret) ← c.parseContent text
  if ret = .getRequest then
    let (c, ret) ← c.doRequest fs
    return (c, .ret ret)
  else return (c, .again .lineOpen)

/-- The body of the main loop. The line handed over begins at the old `m_start_line`. -/
def loopBody (fs : FileSystem) (c : HttpConn) : Except Fault (HttpConn × Next) :=
  match c.checkState with
  | .requestLine => c.nextLine.onRequestLine c.startLine
  | .header => c.nextLine.onHeader fs c.startLine
  | .content => c.nextLine.onContent fs c.startLine

def readLoop (fs : FileSystem) : Nat → HttpConn → LineStatus → Except Fault (HttpConn × HttpCode)
  | 0, _, _ => throw .outOfFuel
  | n + 1, c, status => do
    let (c, status) ← c.loopCond status
    if status = .lineOk then
      match ← c.loopBody fs with
      | (c, .ret code) => return (c, code)
      | (c, .again status) => readLoop fs n c status
    else return (c, .noRequest)

/-- Enough iterations for any buffer: every second one consumes a line end. -/
def readFuel : Nat := readBufferSize + 2

def processRead (fs : FileSystem) (c : HttpConn) : Except Fault (HttpConn × HttpCode) :=
  readLoop fs readFuel c .lineOk

end HttpConn

end Http
