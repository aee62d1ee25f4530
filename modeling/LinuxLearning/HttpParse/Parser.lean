-- SUMMARY: The parser of http_parse.cpp: parse_line, parse_requestline, parse_headers and the main loop parse_content.
import LinuxLearning.HttpConn.State

/-!
# The parser of http_parse.cpp

The functions take the buffer and the indices by reference. These are the members of
`Parser`, and the pointers into the buffer are offsets. The status of a line is that of
`http_conn`.
-/

namespace HttpParse

open Memory CString Http

def bufferSize : Nat := 4096

inductive CheckState where
  | requestLine | header
deriving Repr, DecidableEq

inductive HttpCode where
  | noRequest | getRequest | badRequest | forbiddenRequest | internalError | closedConnection
deriving Repr, DecidableEq

structure Parser where
  buffer : Mem
  checkedIndex : Nat
  readIndex : Nat
  startLine : Nat
  checkState : CheckState

namespace Parser

/-- The variables of `main` before the first `recv`. -/
def init : Parser where
  buffer := fun _ => 0
  checkedIndex := 0
  readIndex := 0
  startLine := 0
  checkState := .requestLine

/-- The bytes `bs` that `recv` has added. -/
def append (p : Parser) (bs : List UInt8) : Parser :=
  { p with buffer := blit p.buffer p.readIndex bs, readIndex := p.readIndex + bs.length }

def loadBuf (p : Parser) (i : Nat) : Except Fault UInt8 :=
  load bufferSize p.buffer i

def storeBuf (p : Parser) (i : Int) (b : UInt8) : Except Fault Parser := do
  return { p with buffer := ← store bufferSize p.buffer i b }

/-- `parse_line`. The body of the `for` ends in a `return`, so it runs once at most. -/
def parseLine (p : Parser) : Except Fault (Parser × LineStatus) := do
  if p.checkedIndex < p.readIndex then
    let temp ← p.loadBuf p.checkedIndex
    if temp = 13 then
      if p.checkedIndex + 1 = p.readIndex then return (p, .lineOpen)
      else if (← p.loadBuf (p.checkedIndex + 1)) = 10 then
        let p ← p.storeBuf p.checkedIndex 0
        let p ← p.storeBuf (p.checkedIndex + 1 : Nat) 0
        return ({ p with checkedIndex := p.checkedIndex + 2 }, .lineOk)
      else return (p, .lineBad)
    else if temp = 10 then
      if 1 < p.checkedIndex then
        if (← p.loadBuf (p.checkedIndex - 1)) = 13 then
          let p ← p.storeBuf (p.checkedIndex - 1 : Nat) 0
          let p ← p.storeBuf p.checkedIndex 0
          return ({ p with checkedIndex := p.checkedIndex + 1 }, .lineOk)
        else return (p, .lineBad)
      else return (p, .lineBad)
    else return (p, .lineBad)
  else return (p, .lineOpen)

/-- The end of `parse_requestline`, from the URL on. -/
def checkUrl (p : Parser) (url : Nat) : Except Fault (Parser × HttpCode) := do
  let url ←
    if ← strncasecmp bufferSize p.buffer url (ascii "http://") 7 then
      strchr bufferSize p.buffer (url + 7) 47
    else pure (some url)
  match url with
  | none => return (p, .badRequest)
  | some url =>
    if (← p.loadBuf url) = 47 then return ({ p with checkState := .header }, .noRequest)
    else return (p, .badRequest)

def parseRequestline (p : Parser) (temp : Nat) : Except Fault (Parser × HttpCode) := do
  match ← strpbrk bufferSize p.buffer temp [32, 9] with
  | none => return (p, .badRequest)
  | some url =>
    let p ← p.storeBuf url 0
    if ← strcasecmp bufferSize p.buffer temp (ascii "GET") then
      let url ← strspn bufferSize p.buffer (url + 1) [32, 9]
      match ← strpbrk bufferSize p.buffer url [32, 9] with
      | none => return (p, .badRequest)
      | some version =>
        let p ← p.storeBuf version 0
        let version ← strspn bufferSize p.buffer (version + 1) [32, 9]
        if ← strcasecmp bufferSize p.buffer version (ascii "HTTP/1.1") then p.checkUrl url
        else return (p, .badRequest)
    else return (p, .badRequest)

/-- `parse_headers`. The host, like the URL, is only printed. -/
def parseHeaders (p : Parser) (temp : Nat) : Except Fault HttpCode := do
  if (← p.loadBuf temp) = 0 then return .getRequest
  else if ← strncasecmp bufferSize p.buffer temp (ascii "Host:") 5 then
    let _ ← strspn bufferSize p.buffer (temp + 5) [32, 9]
    return .noRequest
  else return .noRequest

/-- The main loop of `parse_content`. -/
def contentLoop : Nat → Parser → Except Fault (Parser × HttpCode)
  | 0, _ => throw .outOfFuel
  | n + 1, p => do
    let (p, linestatus) ← p.parseLine
    match linestatus with
    | .lineOk =>
      let temp := p.startLine
      let p := { p with startLine := p.checkedIndex }
      match p.checkState with
      | .requestLine =>
        let (p, retcode) ← p.parseRequestline temp
        if retcode = .badRequest then return (p, .badRequest) else contentLoop n p
      | .header =>
        let retcode ← p.parseHeaders temp
        if retcode = .badRequest then return (p, .badRequest)
        else if retcode = .getRequest then return (p, .getRequest)
        else contentLoop n p
    | .lineOpen => return (p, .noRequest)
    | .lineBad => return (p, .badRequest)

/-- Every turn but the last consumes a byte. -/
def parseContent (p : Parser) : Except Fault (Parser × HttpCode) :=
  contentLoop (bufferSize + 1) p

end Parser

end HttpParse
