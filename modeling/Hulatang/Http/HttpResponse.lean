import Hulatang.Base.ByteQueue
import Hulatang.Lib.Lines
import Hulatang.Lib.Numeral

/-!
# `HttpResponse::buildFromBuffer`

The builder of a response reads the buffer from its front. Its pointers are places behind `buf->data()`,
and `crlf` may be null. `readNumber` and the lengths are `size_t`. What ends the program, or is undefined,
is an `HttpFault`: a line is taken from a null pointer, a conversion throws, an access leaves the readable
bytes, an assertion fails. `wrapped` records whether a sum in a test of lengths has wrapped around.

The loops have as many turns as the buffer has bytes, and one more.
-/

namespace Hulatang

/-- The bytes of a text. -/
def bytesOf (s : String) : List UInt8 := s.toList.map fun c => c.toNat.toUInt8

/-- What is read from bytes of a buffer; one that has never been written is read as 0. -/
def chars (view : List NoInit) : List UInt8 := view.map (·.getD 0)

@[simp] theorem chars_map_some (bytes : List UInt8) : chars (bytes.map some) = bytes := by
  unfold chars
  rw [List.map_map]
  exact List.map_id _

def cr : UInt8 := 13
def lf : UInt8 := 10

namespace Buffer

/-- `findCRLF(data() + start)`; null where there is none. -/
def findCRLF (b : Buffer) (start : ℕ) : Except Fault (Option ℕ) :=
  if start ≤ b.readableBytes then
    .ok ((findPair cr lf ((chars b.toStringView).drop start)).map (start + ·))
  else .error .assertion

end Buffer

/-- `Version`. -/
inductive Version
  | Unknown
  | Http10
  | Http11
  deriving DecidableEq

/-- `VersionFromString`. -/
def versionFromString (ver : List UInt8) : Version :=
  if bytesOf "HTTP/1." <+: ver ∧ ver.length = 8 then
    if ver[7]? = some 48 then .Http10
    else if ver[7]? = some 49 then .Http11
    else .Unknown
  else .Unknown

/-- `HeaderMap`. -/
abbrev HeaderMap := List (List UInt8 × List UInt8)

/-- `headers.emplace`, which leaves a name that is there. -/
def HeaderMap.emplace (headers : HeaderMap) (name value : List UInt8) : HeaderMap :=
  if (headers.lookup name).isSome then headers else headers ++ [(name, value)]

/-- `HttpResponse::ErrorCode`. -/
inductive ErrorCode
  | NoError
  | Status
  | Messages
  | Body
  | WaitForData
  deriving DecidableEq

/-- `HttpResponse`. -/
structure HttpResponse where
  headers : HeaderMap
  body : List UInt8
  statusCode : ℤ
  version : Version
  deriving DecidableEq

/-- How `buildFromBuffer` ends that does not return. -/
inductive HttpFault
  /-- A line, or its length, is taken from a null `crlf`. -/
  | nullCrlf
  /-- `std::stoi` or `std::stoul` throws. -/
  | number (error : NumberError)
  /-- An access beyond the readable bytes. -/
  | outOfBounds
  /-- `std::string::append` throws `std::length_error`. -/
  | lengthError
  | buffer (fault : Fault)
  | diverges
  deriving DecidableEq

structure HttpResponseBuilder where
  headers : HeaderMap
  body : List UInt8
  buf : Buffer
  readNumber : ℕ
  crlf : Option ℕ
  data : ℕ
  version : Version
  status : ℤ
  statusMessage : List UInt8
  line : List UInt8
  code : ErrorCode
  /-- Whether a sum in a test of lengths has wrapped around. -/
  wrapped : Bool
  deriving DecidableEq

namespace HttpResponseBuilder

/-- `line.find(c)` cuts the line: `substr(0, i)` and `substr(i + 1)`. Both are the whole line where there
is no `c`, since `npos + 1` is 0. -/
def cut (c : UInt8) (line : List UInt8) : List UInt8 × List UInt8 :=
  match line.idxOf? c with
  | some i => (line.take i, line.drop (i + 1))
  | none => (line, line)

/-- A conversion that may throw. -/
def convert {α : Type} (x : Except NumberError α) : Except HttpFault α := x.mapError .number

/-- An operation of the buffer, whose assertion may fail. -/
def access {α : Type} (x : Except Fault α) : Except HttpFault α := x.mapError .buffer

def nextLine (b : HttpResponseBuilder) : Except HttpFault HttpResponseBuilder :=
  match b.crlf with
  | none => .error .nullCrlf
  | some crlf => do
    let next ← access (b.buf.findCRLF (crlf + 2))
    return { b with
      -- `crlf` may stand before `data`: the difference is signed, and the sum is taken modulo `2^64`.
      readNumber := addSize b.readNumber (addSize (subSize crlf b.data) 2)
      data := crlf + 2
      crlf := next }

/-- `line = {data, crlf}`. -/
def setLine (b : HttpResponseBuilder) : Except HttpFault HttpResponseBuilder :=
  match b.crlf with
  | none => .error .nullCrlf
  | some crlf => .ok { b with line := segment (chars b.buf.toStringView) b.data crlf }

def statusLine (b : HttpResponseBuilder) : Except HttpFault HttpResponseBuilder := do
  let b ← setLine { b with code := .Status }
  let (version, line) := cut 32 b.line
  let (status, line) := cut 32 line
  let status ← convert (stoi status)
  let (statusMessage, line) := cut 32 line
  return { b with
    version := versionFromString version
    status := status
    statusMessage := statusMessage
    line := line
    code := .NoError }

/-- The name and the value of a header. -/
def header (line : List UInt8) : List UInt8 × List UInt8 :=
  let (name, value) := cut 58 line
  (name, if value.head? = some 32 then value.tail else value)

/-- The loop of `messageLine`. -/
def messageLoop : ℕ → HttpResponseBuilder → Except HttpFault HttpResponseBuilder
  | 0, _ => .error .diverges
  | fuel + 1, b => do
    let b ← b.nextLine
    let b ← b.setLine
    if b.line = [] then return b
    else
      let (name, value) := header b.line
      messageLoop fuel { b with headers := b.headers.emplace name value }

def messageLine (b : HttpResponseBuilder) : Except HttpFault HttpResponseBuilder := do
  let b ← messageLoop (b.buf.readableBytes + 1) { b with code := .Messages }
  return { b with code := .NoError }

/-- `readNumber + len + 2`, which the test of lengths compares with `readableBytes()`. -/
def needed (b : HttpResponseBuilder) (len : ℕ) : ℕ := addSize (addSize b.readNumber len) 2

/-- The sum is taken. -/
def sum (b : HttpResponseBuilder) (len : ℕ) : HttpResponseBuilder :=
  { b with wrapped := b.wrapped || 2^64 ≤ b.readNumber + len + 2 }

/-- `body += std::string_view{buf->data() + readNumber, len}`, and behind it. -/
def takeChunk (b : HttpResponseBuilder) (len : ℕ) : Except HttpFault HttpResponseBuilder :=
  -- `append` looks at the length before it reads anything.
  if maxSize < len then .error .lengthError
  else if b.readNumber + len ≤ b.buf.readableBytes then
    .ok { b with
      body := b.body ++ segment (chars b.buf.toStringView) b.readNumber (b.readNumber + len)
      readNumber := addSize b.readNumber len
      data := addSize b.readNumber len }
  else .error .outOfBounds

/-- The loop of `transferEncoding`. -/
def transferLoop : ℕ → HttpResponseBuilder → Except HttpFault HttpResponseBuilder
  | 0, _ => .error .diverges
  | fuel + 1, b => do
    let b ← b.nextLine
    if b.crlf = none then return b
    else
      let b ← b.setLine
      let b ← b.nextLine
      if b.crlf = none then return b
      else
        let len ← convert (stoul 16 b.line)
        if len = 0 then
          let b ← b.nextLine
          if b.crlf = none then return b
          else
            let buf ← access (b.buf.retrieve b.readNumber)
            return { b with buf := buf, code := .NoError }
        else if b.buf.readableBytes < b.needed len then return b.sum len
        else
          let b ← (b.sum len).takeChunk len
          -- `crlf` stays behind, where the search from the beginning of the chunk has found it.
          transferLoop fuel b

def transferEncoding (b : HttpResponseBuilder) : Except HttpFault HttpResponseBuilder :=
  transferLoop (b.buf.readableBytes + 1) { b with code := .WaitForData }

def contentLength (b : HttpResponseBuilder) (len : ℕ) : Except HttpFault HttpResponseBuilder :=
  let b := { b with code := .WaitForData }
  if b.buf.readableBytes < b.needed len then .ok (b.sum len)
  else do
    let buf ← access (b.buf.retrieve (addSize b.readNumber 2))
    let (buf, body) ← access (buf.retrieveAsString len)
    return { b.sum len with buf := buf, body := chars body, code := .NoError }

def bodyLine (b : HttpResponseBuilder) : Except HttpFault HttpResponseBuilder :=
  let b := { b with code := .Body }
  if b.headers.lookup (bytesOf "Transfer-Encoding") = some (bytesOf "chunked") then b.transferEncoding
  else
    match b.headers.lookup (bytesOf "Content-Length") with
    | some value => do
      let len ← convert (stoul 10 value)
      b.contentLength len
    | none => .ok b

def parse (b : HttpResponseBuilder) : Except HttpFault HttpResponseBuilder := do
  let crlf ← access (b.buf.findCRLF 0)
  let b ← statusLine { b with data := 0, crlf := crlf }
  if b.code ≠ .NoError then return b
  else
    let b ← b.messageLine
    if b.code ≠ .NoError then return b else b.bodyLine

/-- The builder of `buildFromBuffer`. Its `status` is not initialized. -/
def initial (buf : Buffer) : HttpResponseBuilder where
  headers := []
  body := []
  buf := buf
  readNumber := 0
  crlf := none
  data := 0
  version := .Unknown
  status := 0
  statusMessage := []
  line := []
  code := .NoError
  wrapped := false

/-- The response, or the error condition. -/
def result (b : HttpResponseBuilder) : Except ErrorCode HttpResponse :=
  if b.code = .NoError then .ok ⟨b.headers, b.body, b.status, b.version⟩ else .error b.code

end HttpResponseBuilder

/-- `HttpResponse::buildFromBuffer`: what it leaves in the buffer, and the response or the error
condition. -/
def buildFromBuffer (buf : Buffer) : Except HttpFault (Buffer × Except ErrorCode HttpResponse) :=
  (HttpResponseBuilder.initial buf).parse.map fun b => (b.buf, b.result)

end Hulatang
