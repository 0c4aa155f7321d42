import Hulatang.Http.Rendered

/-!
# Responses with a `Content-Length`

A response whose header block has a `Content-Length` is read as it was written, and exactly its bytes are
retrieved, whatever follows them. As long as the body is not there in full, the builder waits, and leaves
the buffer as it is.
-/

namespace Hulatang

/-- A well-formed response with a `Content-Length`. -/
structure ContentLengthResponse where
  status : ResponseStatus
  headers : ResponseHeaders
  body : List UInt8
  length : List UInt8
  length_header : (bytesOf "Content-Length", length) ∈ headers.headers
  length_eq : numeral 10 length = some body.length
  not_chunked : (bytesOf "Transfer-Encoding", bytesOf "chunked") ∉ headers.headers

namespace ContentLengthResponse

variable (response : ContentLengthResponse)

/-- The status line, the headers and the empty line. -/
def block : List UInt8 := unlines cr lf (blockLines response.status response.headers)

/-- What is sent. -/
def bytes : List UInt8 := response.block ++ response.body

/-- What is to be returned. -/
def toHttpResponse : HttpResponse where
  headers := response.headers.headers
  body := response.body
  statusCode := response.status.code
  version := versionFromString response.status.version

/-- The builder behind the header block. -/
def builder (buf : Buffer) (tail : List UInt8) : HttpResponseBuilder :=
  { behindBlock buf response.status response.headers (lines cr lf tail).1 with code := .Body }

theorem headers_builder (buf : Buffer) (tail : List UInt8) :
    (response.builder buf tail).headers = response.headers.headers :=
  headers_behindBlock response.status response.headers buf (lines cr lf tail).1

theorem version_builder (buf : Buffer) (tail : List UInt8) :
    (response.builder buf tail).version = versionFromString response.status.version :=
  version_behindBlock response.status response.headers buf (lines cr lf tail).1

theorem readNumber_builder (buf : Buffer) (tail : List UInt8) :
    (response.builder buf tail).readNumber + 2 = response.block.length :=
  readNumber_behindBlock response.status response.headers buf (lines cr lf tail).1

variable {response} {buf : Buffer} {tail : List UInt8}

/-- Behind the header block, the length is read. -/
theorem parse_eq (hbuf : Holds buf (response.block ++ tail)) (hlen : response.body.length < 2^64) :
    (HttpResponseBuilder.initial buf).parse =
      (response.builder buf tail).contentLength response.body.length := by
  have hheaders := headers_behindBlock response.status response.headers buf (lines cr lf tail).1
  rw [parse_of_block hbuf (splits_lines tail)]
  refine HttpResponseBuilder.bodyLine_of_contentLength ?_ ?_ (stoul_of_numeral response.length_eq hlen)
  · rw [hheaders, ne_eq, response.headers.lookup_eq_some_iff]
    exact response.not_chunked
  · rw [hheaders, response.headers.lookup_eq_some_iff]
    exact response.length_header

/-- The builder with a body. -/
def filled (buf : Buffer) (tail : List UInt8) (buf' : Buffer) : HttpResponseBuilder :=
  { response.builder buf tail with buf := buf', body := response.body, code := .NoError }

/-- A body that is there in full is taken, and the bytes behind it stay. -/
theorem parse_takes {rest : List UInt8} (hbuf : Holds buf (response.bytes ++ rest)) :
    ∃ buf', Holds buf' rest ∧
      (HttpResponseBuilder.initial buf).parse =
        .ok (response.filled buf (response.body ++ rest) buf') := by
  unfold bytes at hbuf
  rw [List.append_assoc] at hbuf
  have hlt := hbuf.length_lt
  have hread := response.readNumber_builder buf (response.body ++ rest)
  rw [List.length_append, List.length_append] at hlt
  have hlong : (response.builder buf (response.body ++ rest)).readNumber + response.body.length + 2 ≤
      (response.block ++ (response.body ++ rest)).length := by
    rw [List.length_append, List.length_append]
    omega
  obtain ⟨buf', hbuf', hdone⟩ := HttpResponseBuilder.contentLength_takes
    (b := response.builder buf (response.body ++ rest)) hbuf hlong
  rw [hread, ← List.drop_drop, List.drop_left, List.drop_left] at hbuf'
  rw [hread, List.drop_left, List.take_left] at hdone
  refine ⟨buf', hbuf', ?_⟩
  rw [parse_eq hbuf (by omega), hdone]
  rfl

theorem result_filled (buf' : Buffer) :
    (response.filled buf tail buf').result = .ok response.toHttpResponse := by
  show Except.ok (HttpResponse.mk (response.builder buf tail).headers response.body
    response.status.code (response.builder buf tail).version) = _
  rw [response.headers_builder buf tail, response.version_builder buf tail]
  rfl

/-- Two bytes, with a header in front of the length, and a CRLF behind them. -/
def sample : ContentLengthResponse where
  status := .ok
  headers :=
    { headers := [(bytesOf "Server", bytesOf "a:b"), (bytesOf "Content-Length", bytesOf "2")]
      distinct := by decide
      name_token := by decide
      name_free := by decide
      value_free := by decide }
  body := bytesOf "ab"
  length := bytesOf "2"
  length_header := by decide
  length_eq := by decide
  not_chunked := by decide

/-- A body that is not there in full is waited for. -/
theorem buildFromBuffer_waits (hbuf : Holds buf (response.block ++ tail))
    (hlen : response.bytes.length < 2^63) (hshort : tail.length < response.body.length) :
    buildFromBuffer buf = .ok (buf, .error .WaitForData) := by
  have hread := response.readNumber_builder buf tail
  have hlength : response.bytes.length = response.block.length + response.body.length :=
    List.length_append
  have hless : (response.block ++ tail).length <
      (response.builder buf tail).readNumber + response.body.length + 2 := by
    rw [List.length_append]
    omega
  have hdone := HttpResponseBuilder.contentLength_waits (b := response.builder buf tail) hbuf
    (by omega) hless
  unfold buildFromBuffer
  rw [parse_eq hbuf (by omega), hdone]
  rfl

end ContentLengthResponse

end Hulatang
