import Hulatang.Http.HttpClient
import Hulatang.Http.RequestGrammar
import Hulatang.Http.URL

/-!
# `HttpClient::get` and the request it writes

`operator<<` writes a request to the buffer piece by piece, through a stream that sets `badbit` when the
buffer throws, and writes nothing from then on. The headers are iterated in an order of the library's own.

The request that is written is the one that the URL asks for exactly when the URL has no query, and
nothing in its path and its host that ends a part of a request (`faithful_iff`): the query is never handed
to the request, and path and host are written as they are.
-/

namespace Hulatang

/-! ## The stream -/

/-- `OutputStream`: the buffer behind it, and whether `badbit` is set. -/
structure OutputStream where
  buf : Buffer
  bad : Bool

/-- `StreamBufferEndian::xsputn`, and how many bytes it has taken. -/
def xsputn (buf : Buffer) (s : List UInt8) : Except Fault (Buffer × ℕ) :=
  if 0 < s.length then do
    let buf ← buf.append s
    return (buf, s.length)
  else return (buf, 0)

namespace OutputStream

/-- `out << s` of a string. An exception is caught, and sets `badbit`. -/
def put (out : OutputStream) (s : List UInt8) : Except Fault OutputStream :=
  if out.bad then .ok out
  else
    match xsputn out.buf s with
    | .ok (buf, taken) => .ok ⟨buf, taken ≠ s.length⟩
    | .error .lengthError => .ok { out with bad := true }
    | .error .assertion => .error .assertion

/-- `out << s << …`. -/
def putAll (out : OutputStream) (pieces : List (List UInt8)) : Except Fault OutputStream :=
  pieces.foldlM put out

end OutputStream

/-! ## The request -/

/-- `HttpRequest::Method`. -/
inductive Method
  | INVALID
  | GET
  | POST
  | HEAD
  | PUT
  | DELETE
  deriving DecidableEq

/-- `magic_enum::enum_name`. -/
def Method.enumName : Method → List UInt8
  | INVALID => bytesOf "INVALID"
  | GET => bytesOf "GET"
  | POST => bytesOf "POST"
  | HEAD => bytesOf "HEAD"
  | PUT => bytesOf "PUT"
  | DELETE => bytesOf "DELETE"

/-- `to_string(Version)`. -/
def Version.toBytes : Version → List UInt8
  | Http10 => bytesOf "HTTP/1.0"
  | Http11 => bytesOf "HTTP/1.1"
  | Unknown => bytesOf "Unknown"

/-- `headers[name] = value`. -/
def HeaderMap.assign (headers : HeaderMap) (name value : List UInt8) : HeaderMap :=
  if name ∈ headers.map Prod.fst then headers.map fun h => if h.1 = name then (name, value) else h
  else headers ++ [(name, value)]

/-- `HttpRequest`. -/
structure HttpRequest where
  method : Method := .INVALID
  version : Version := .Unknown
  headers : HeaderMap := []
  path : List UInt8 := []
  query : List UInt8 := []

namespace HttpRequest

def addHeader (r : HttpRequest) (name value : List UInt8) : HttpRequest :=
  { r with headers := r.headers.assign name value }

/-- What `operator<<` writes, piece by piece, where `iterate` is the order of the headers. -/
def pieces (iterate : HeaderMap → HeaderMap) (r : HttpRequest) : List (List UInt8) :=
  [r.method.enumName, bytesOf " ", if r.path = [] then bytesOf "/" else r.path, bytesOf " ",
    r.version.toBytes, bytesOf "\r\n"] ++
  (iterate r.headers).flatMap (fun header => [header.1, bytesOf ":", header.2, bytesOf "\r\n"]) ++
  [bytesOf "\r\n"]

/-- `operator<<`. -/
def write (iterate : HeaderMap → HeaderMap) (out : OutputStream) (r : HttpRequest) :
    Except Fault OutputStream := out.putAll (r.pieces iterate)

end HttpRequest

namespace HttpClient

/-- The request that `get` makes of a URL. -/
def getRequest (url : URL) : HttpRequest :=
  ({ method := .GET, version := .Http11, path := url.path.text : HttpRequest }.addHeader
    (bytesOf "Host") url.host.text).addHeader (bytesOf "Accept") (bytesOf "text/html")

/-- `get`: what it leaves in `writeBuffer_`. -/
def get (iterate : HeaderMap → HeaderMap) (urlStr : Buf) : Except Fault Buffer := do
  let url := URL.split urlStr.buf
  let out : OutputStream := ⟨Buffer.ofSize Buffer.kInitialSize, false⟩
  let out ← (getRequest url).write iterate out
  return out.buf

end HttpClient

/-! ## What the stream writes -/

namespace OutputStream

open HttpClient (Received)

variable {out : OutputStream} {bytes s : List UInt8} {ps : List (List UInt8)}

theorem putAll_of_bad (hbad : out.bad = true) (ps : List (List UInt8)) : out.putAll ps = .ok out := by
  induction ps with
  | nil => rfl
  | cons p ps ih =>
    have hput : out.put p = .ok out := if_pos hbad
    unfold putAll at ih ⊢
    rw [List.foldlM_cons, hput]
    exact ih

/-- A piece is written, or the stream goes bad since it does not fit. -/
theorem put_or (hgood : out.bad = false) (h : Received out.buf bytes) (hlen : s.length ≤ maxSize) :
    (∃ buf, out.put s = .ok ⟨buf, false⟩ ∧ Received buf (bytes ++ s)) ∨
      out.put s = .ok ⟨out.buf, true⟩ ∧ maxSize < Buffer.kCheapPrepend + (bytes ++ s).length := by
  unfold put xsputn
  rw [hgood]
  by_cases hempty : 0 < s.length
  · rw [if_pos hempty]
    rcases h.append_or hlen with ⟨buf, hdone, hreceived⟩ | ⟨hfault, hbig⟩
    · refine .inl ⟨buf, ?_, hreceived⟩
      rw [hdone]
      simp [pure, Except.pure, bind, Except.bind]
    · refine .inr ⟨?_, hbig⟩
      rw [hfault]
      rfl
  · obtain rfl : s = [] := List.eq_nil_of_length_eq_zero (by omega)
    rw [List.append_nil]
    exact .inl ⟨out.buf, rfl, h⟩

/-- The pieces are all written, or the first ones are, since they do not fit together. -/
theorem putAll_or (hgood : out.bad = false) (h : Received out.buf bytes)
    (hlen : ∀ p ∈ ps, p.length ≤ maxSize) :
    ∃ out', out.putAll ps = .ok out' ∧
      (Received out'.buf (bytes ++ ps.flatten) ∨
        maxSize < Buffer.kCheapPrepend + (bytes ++ ps.flatten).length ∧
          ∃ k, k < ps.length ∧ Received out'.buf (bytes ++ (ps.take k).flatten)) := by
  induction ps generalizing out bytes with
  | nil => exact ⟨out, rfl, .inl (by simpa using h)⟩
  | cons p ps ih =>
    obtain ⟨hp, hps⟩ := List.forall_mem_cons.mp hlen
    unfold putAll at ih ⊢
    rw [List.foldlM_cons]
    rcases put_or hgood h hp with ⟨buf, hput, hreceived⟩ | ⟨hput, hbig⟩
    · have hgood' : (⟨buf, false⟩ : OutputStream).bad = false := rfl
      obtain ⟨out', hrun, hout⟩ := ih hgood' hreceived hps
      refine ⟨out', ?_, ?_⟩
      · rw [hput]
        exact hrun
      · rw [List.flatten_cons, ← List.append_assoc]
        refine hout.imp_right fun ⟨hbig, k, hk, htaken⟩ => ⟨hbig, k + 1, by simpa using hk, ?_⟩
        rwa [List.take_succ_cons, List.flatten_cons, ← List.append_assoc]
    · refine ⟨⟨out.buf, true⟩, ?_, .inr ⟨?_, 0, by simp, by simpa using h⟩⟩
      · rw [hput]
        exact putAll_of_bad rfl ps
      · simp only [List.flatten_cons, List.length_append] at hbig ⊢
        omega

end OutputStream

/-! ## The request line and the headers -/

namespace HttpRequest

variable {iterate : HeaderMap → HeaderMap} {r : HttpRequest}

/-- The target that is written. -/
def writtenTarget (r : HttpRequest) : List UInt8 := if r.path = [] then bytesOf "/" else r.path

def headerBytes (header : List UInt8 × List UInt8) : List UInt8 := header.1 ++ Request.headerColon :: header.2

/-- The request as it is meant to be read. -/
def toRequest (iterate : HeaderMap → HeaderMap) (r : HttpRequest) : Request where
  method := r.method.enumName
  target := r.writtenTarget
  version := r.version.toBytes
  headers := iterate r.headers

theorem flatten_pieces :
    (r.pieces iterate).flatten =
      unlines cr lf ((r.toRequest iterate).requestLine :: ((iterate r.headers).map headerBytes ++ [[]])) := by
  have hcrlf : bytesOf "\r\n" = [cr, lf] := by decide
  have hspace : bytesOf " " = [Request.space] := by decide
  have hcolon : bytesOf ":" = [Request.headerColon] := by decide
  have hheaders : ∀ hs : HeaderMap,
      (hs.flatMap fun header => [header.1, bytesOf ":", header.2, bytesOf "\r\n"]).flatten =
        unlines cr lf (hs.map headerBytes) := by
    intro hs
    induction hs with
    | nil => rfl
    | cons header hs ih =>
      rw [List.flatMap_cons, List.flatten_append, ih, List.map_cons, unlines_cons, hcolon, hcrlf]
      simp [headerBytes]
  unfold pieces
  rw [List.flatten_append, List.flatten_append, hheaders, hcrlf, hspace]
  simp [Request.requestLine, toRequest, writtenTarget]

/-- Written with clean parts, the bytes are the request. -/
theorem reads_pieces (hmethod : Request.Token r.method.enumName) (htarget : Request.Target r.writtenTarget)
    (hversion : r.version ≠ .Unknown)
    (hheaders : ∀ h ∈ iterate r.headers, Request.Token h.1 ∧ Request.FieldValue h.2) :
    (r.toRequest iterate).Reads (r.pieces iterate).flatten := by
  constructor
  · exact hmethod
  · exact htarget
  · unfold toRequest Version.toBytes
    cases hr : r.version with
    | Unknown => exact absurd hr hversion
    | Http10 => exact .inl rfl
    | Http11 => exact .inr rfl
  · refine ⟨(iterate r.headers).map headerBytes, flatten_pieces, ?_⟩
    rw [List.forall₂_map_left_iff, toRequest, List.forall₂_same]
    intro h hh
    obtain ⟨hname, hvalue⟩ := hheaders h hh
    exact ⟨hname, hvalue, [], [], by simp [headerBytes], rfl, rfl⟩

end HttpRequest

/-! ## The request of a URL -/

namespace HttpClient

open Request (Reads Target FieldValue Token isTargetChar)

variable {iterate : HeaderMap → HeaderMap} {url : URL}

/-- The target that a URL asks for. -/
def requestTarget (url : URL) : List UInt8 :=
  (if url.path.text = [] then bytesOf "/" else url.path.text) ++
    if url.query.text = [] then [] else question :: url.query.text

/-- The readable bytes are the request that the URL asks for, and nothing else. -/
def Faithful (url : URL) (b : Buffer) : Prop :=
  ∃ bytes headers accept, b.toStringView = bytes.map some ∧
    Reads ⟨bytesOf "GET", requestTarget url, bytesOf "HTTP/1.1", headers⟩ bytes ∧
    headers.Perm [(bytesOf "Host", url.host.text), (bytesOf "Accept", accept)]

/-- The URL has no query, path and host do not end the parts that they are written in, and the request fits
the buffer. -/
structure Plain (url : URL) : Prop where
  query : url.query.text = []
  path : url.path.text.all isTargetChar = true
  host : FieldValue url.host.text
  fits : Buffer.kCheapPrepend + ((getRequest url).writtenTarget.length + url.host.text.length + 42) ≤ maxSize

theorem headers_getRequest (url : URL) :
    (getRequest url).headers =
      [(bytesOf "Host", url.host.text), (bytesOf "Accept", bytesOf "text/html")] := by
  have hne : bytesOf "Accept" ≠ bytesOf "Host" := by decide
  simp [getRequest, HttpRequest.addHeader, HeaderMap.assign, hne]

theorem length_flatten_pieces (hiterate : ∀ headers, (iterate headers).Perm headers) :
    ((getRequest url).pieces iterate).flatten.length =
      (getRequest url).writtenTarget.length + url.host.text.length + 42 := by
  have hperm := (((hiterate (getRequest url).headers).flatMap_right
    fun header => [header.1, bytesOf ":", header.2, bytesOf "\r\n"]).flatten).length_eq
  unfold HttpRequest.pieces
  rw [List.flatten_append, List.flatten_append, List.length_append, List.length_append, hperm,
    headers_getRequest]
  have hmethod : (getRequest url).method = .GET := rfl
  have hversion : (getRequest url).version = .Http11 := rfl
  rw [hmethod, hversion]
  simp [HttpRequest.writtenTarget, Method.enumName, Version.toBytes, bytesOf]
  omega

/-- No piece is longer than a string can be. -/
theorem length_pieces_le (hiterate : ∀ headers, (iterate headers).Perm headers) (urlStr : Buf) :
    ∀ p ∈ (getRequest (URL.split urlStr.buf)).pieces iterate, p.length ≤ maxSize := by
  obtain ⟨hhost, hpath⟩ := URL.length_split_le urlStr.buf
  have hhost' := hhost.trans urlStr.len_le
  have hpath' := hpath.trans urlStr.len_le
  have hsmall : ∀ s ∈ [bytesOf "GET", bytesOf " ", bytesOf "/", bytesOf "HTTP/1.1", bytesOf "\r\n",
      bytesOf ":",
      bytesOf "Host", bytesOf "Accept", bytesOf "text/html"], s.length ≤ maxSize := by decide
  simp only [List.forall_mem_cons, List.not_mem_nil, false_imp_iff, implies_true, and_true] at hsmall
  obtain ⟨hget, hspace, hslash, hversion, hcrlf, hcolon, hname, hname', hvalue⟩ := hsmall
  have htarget : (getRequest (URL.split urlStr.buf)).writtenTarget.length ≤ maxSize := by
    unfold HttpRequest.writtenTarget
    split_ifs
    · exact hslash
    · exact hpath'
  intro p hp
  unfold HttpRequest.pieces at hp
  rw [List.mem_append, List.mem_append, List.mem_flatMap] at hp
  rcases hp with (hp | ⟨header, hheader, hp⟩) | hp
  · simp only [List.mem_cons, List.not_mem_nil, or_false] at hp
    rcases hp with rfl | rfl | rfl | rfl | rfl | rfl
    · exact hget
    · exact hspace
    · exact htarget
    · exact hspace
    · exact hversion
    · exact hcrlf
  · rw [(hiterate _).mem_iff, headers_getRequest] at hheader
    simp only [List.mem_cons, List.not_mem_nil, or_false] at hheader hp
    rcases hheader with rfl | rfl <;> rcases hp with rfl | rfl | rfl | rfl <;> assumption
  · rw [List.mem_singleton.mp hp]
    exact hcrlf

/-- A request whose path and host are clean is read as the request of the URL's path. -/
theorem reads_getRequest (hiterate : ∀ headers, (iterate headers).Perm headers)
    (hpath : url.path.text.all isTargetChar = true) (hhost : FieldValue url.host.text) :
    ((getRequest url).toRequest iterate).Reads ((getRequest url).pieces iterate).flatten := by
  have hget : Token (bytesOf "GET") := ⟨by decide, by decide⟩
  apply HttpRequest.reads_pieces
  · exact hget
  · have hpath' : (getRequest url).path = url.path.text := rfl
    unfold HttpRequest.writtenTarget
    rw [hpath']
    split_ifs with hempty
    · exact ⟨by decide, by decide⟩
    · exact ⟨hempty, hpath⟩
  · exact Version.noConfusion
  · have haccept : FieldValue (bytesOf "text/html") :=
      Request.fieldValue_of_all (by decide) (by decide) (by decide)
    have hname : Token (bytesOf "Host") ∧ Token (bytesOf "Accept") :=
      ⟨⟨by decide, by decide⟩, by decide, by decide⟩
    intro header hheader
    rw [(hiterate _).mem_iff, headers_getRequest] at hheader
    simp only [List.mem_cons, List.not_mem_nil, or_false] at hheader
    rcases hheader with rfl | rfl
    · exact ⟨hname.1, hhost⟩
    · exact ⟨hname.2, haccept⟩

/-- The buffer of a new client. -/
theorem received_ofSize : Received (Buffer.ofSize Buffer.kInitialSize) [] :=
  ⟨⟨Buffer.wellFormed_ofSize (by decide), Buffer.toStringView_ofSize⟩, rfl⟩

/-- `get` writes the whole request, or it does not fit and the last CRLF is missing. -/
theorem get_or (hiterate : ∀ headers, (iterate headers).Perm headers) (urlStr : Buf) :
    ∃ b, get iterate urlStr = .ok b ∧
      (b.toStringView = ((getRequest (URL.split urlStr.buf)).pieces iterate).flatten.map some ∧
          Buffer.kCheapPrepend + ((getRequest (URL.split urlStr.buf)).pieces iterate).flatten.length ≤
            maxSize ∨
        maxSize < Buffer.kCheapPrepend + ((getRequest (URL.split urlStr.buf)).pieces iterate).flatten.length ∧
          ∃ bytes rest, b.toStringView = bytes.map some ∧ cr ∈ rest ∧
            ((getRequest (URL.split urlStr.buf)).pieces iterate).flatten = bytes ++ rest) := by
  have hgood : (⟨Buffer.ofSize Buffer.kInitialSize, false⟩ : OutputStream).bad = false := rfl
  obtain ⟨out, hrun, hout⟩ := OutputStream.putAll_or hgood received_ofSize (length_pieces_le hiterate urlStr)
  refine ⟨out.buf, ?_, ?_⟩
  · unfold get HttpRequest.write
    dsimp only
    rw [hrun]
    rfl
  · rw [List.nil_append] at hout
    rcases hout with hall | ⟨hbig, k, hk, htaken⟩
    · exact .inl ⟨hall.holds.view, hall.fits⟩
    · refine .inr ⟨hbig, _, (((getRequest (URL.split urlStr.buf)).pieces iterate).drop k).flatten,
        htaken.holds.view, ?_, ?_⟩
      · -- The last piece is among those that are missing.
        unfold HttpRequest.pieces at hk ⊢
        rw [List.length_append, List.length_singleton] at hk
        rw [List.drop_append_of_le_length (by omega), List.flatten_append, List.mem_append]
        exact .inr (by decide)
      · rw [List.nil_append, ← List.flatten_append, List.take_append_drop]

theorem requestTarget_eq (url : URL) :
    requestTarget url =
      (getRequest url).writtenTarget ++ if url.query.text = [] then [] else question :: url.query.text := rfl

/-- What reads as the request of a URL has a clean path and a clean host. -/
theorem clean_of_faithful {bytes : List UInt8} {headers : HeaderMap} {accept : List UInt8}
    (hreads : Reads ⟨bytesOf "GET", requestTarget url, bytesOf "HTTP/1.1", headers⟩ bytes)
    (hperm : headers.Perm [(bytesOf "Host", url.host.text), (bytesOf "Accept", accept)]) :
    url.path.text.all isTargetChar = true ∧ FieldValue url.host.text := by
  constructor
  · have htarget := hreads.target.2
    unfold requestTarget at htarget
    rw [List.all_append, Bool.and_eq_true] at htarget
    by_cases hempty : url.path.text = []
    · rw [hempty]
      rfl
    · rw [if_neg hempty] at htarget
      exact htarget.1
  · exact (hreads.header (hperm.mem_iff.mpr List.mem_cons_self)).2

/-- What is missing of the request that is written, if anything, ends a line, so that it is read only when it
has been written as a whole. -/
theorem plain_of_faithful (hiterate : ∀ headers, (iterate headers).Perm headers) {urlStr : Buf} {b : Buffer}
    (hget : get iterate urlStr = .ok b) (hfaithful : Faithful (URL.split urlStr.buf) b) :
    Plain (URL.split urlStr.buf) := by
  obtain ⟨b', hget', hout⟩ := get_or hiterate urlStr
  obtain rfl : b = b' := Except.ok.inj (hget.symm.trans hget')
  rw [length_flatten_pieces hiterate] at hout
  obtain ⟨bytes, headers, accept, hview, hreads, hperm⟩ := hfaithful
  obtain ⟨hpath, hhost⟩ := clean_of_faithful hreads hperm
  have hown := reads_getRequest hiterate hpath hhost
  have hsome : Function.Injective (List.map (some : UInt8 → NoInit)) :=
    List.map_injective_iff.mpr fun _ _ => Option.some.inj
  rcases hout with ⟨hall, hfits⟩ | ⟨-, taken, rest, htaken, hcr, hpieces⟩
  · -- The bytes are one request only, so the targets agree.
    obtain rfl := hsome (hview.symm.trans hall)
    have htarget := congrArg Request.target (hown.unique hreads)
    dsimp only [HttpRequest.toRequest] at htarget
    rw [requestTarget_eq] at htarget
    refine ⟨?_, hpath, hhost, hfits⟩
    by_contra hquery
    rw [if_neg hquery] at htarget
    exact absurd htarget (by simp)
  · -- Both have two headers, and a CR is missing.
    obtain rfl := hsome (hview.symm.trans htaken)
    have hcount := hown.count_cr
    have hlength : (iterate (getRequest (URL.split urlStr.buf)).headers).length = 2 := by
      rw [(hiterate _).length_eq, headers_getRequest]
      rfl
    have hpos := List.count_pos_iff.mpr hcr
    rw [hpieces, List.count_append, hreads.count_cr, hperm.length_eq] at hcount
    dsimp only [HttpRequest.toRequest] at hcount
    rw [hlength] at hcount
    simp only [List.length_cons, List.length_nil] at hcount
    omega

/-- `get` writes the request that the URL asks for exactly when the URL is plain. -/
theorem faithful_iff (iterate : HeaderMap → HeaderMap) (hiterate : ∀ headers, (iterate headers).Perm headers)
    (urlStr : Buf) :
    (∃ b, get iterate urlStr = .ok b ∧ Faithful (URL.split urlStr.buf) b) ↔ Plain (URL.split urlStr.buf) := by
  constructor
  · rintro ⟨b, hget, hfaithful⟩
    exact plain_of_faithful hiterate hget hfaithful
  · intro hplain
    obtain ⟨b, hget, hout⟩ := get_or hiterate urlStr
    rw [length_flatten_pieces hiterate] at hout
    refine ⟨b, hget, ?_⟩
    rcases hout with ⟨hall, -⟩ | ⟨hbig, -⟩
    · have hown := reads_getRequest hiterate hplain.path hplain.host
      refine ⟨_, iterate (getRequest (URL.split urlStr.buf)).headers, bytesOf "text/html", hall, ?_, ?_⟩
      · rw [requestTarget_eq, if_pos hplain.query, List.append_nil]
        exact hown
      · rw [← headers_getRequest]
        exact hiterate _
    · exact absurd hplain.fits (Nat.not_le.mpr hbig)

def indexPage : Buf := ⟨bytesOf "http://www.baidu.com/index.html", by decide⟩

theorem faithful_iff_index :
    (∀ headers : HeaderMap, (id headers).Perm headers) ∧
      ∃ b, get id indexPage = .ok b ∧ Faithful (URL.split indexPage.buf) b := by
  have hplain : Plain (URL.split indexPage.buf) :=
    ⟨by decide, by decide, Request.fieldValue_of_all (by decide) (by decide) (by decide), by decide⟩
  exact ⟨fun _ => .refl _, (faithful_iff id (fun _ => .refl _) indexPage).mpr hplain⟩

def searchPage : Buf := ⟨bytesOf "http://www.baidu.com/s?wd=1", by decide⟩

/-- The query does not reach the request, in either order of the headers. -/
theorem not_faithful_query :
    (URL.split searchPage.buf).host.text = bytesOf "www.baidu.com" ∧
      (¬ ∃ b, get id searchPage = .ok b ∧ Faithful (URL.split searchPage.buf) b) ∧
      ¬ ∃ b, get List.reverse searchPage = .ok b ∧ Faithful (URL.split searchPage.buf) b := by
  have hquery : (URL.split searchPage.buf).query.text ≠ [] := by decide
  refine ⟨by decide, ?_, ?_⟩
  · rintro ⟨b, hget, hfaithful⟩
    exact hquery (plain_of_faithful (fun _ => .refl _) hget hfaithful).query
  · rintro ⟨b, hget, hfaithful⟩
    exact hquery (plain_of_faithful List.reverse_perm hget hfaithful).query

end HttpClient

end Hulatang
