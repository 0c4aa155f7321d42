import Hulatang.Http.HttpResponse

/-!
# The builder on the lines of its buffer

A buffer holds lines that end in CRLF, and something behind the last CRLF. Every step of the builder
begins at the end of one of the lines: `crlf` points there, or it is null behind the last one. Here each
function of the builder has an equation on the lines; what the bytes of a line or of a chunk are
decides nothing else.
-/

namespace Hulatang

/-- The readable bytes of a buffer. -/
structure Holds (buf : Buffer) (bytes : List UInt8) : Prop where
  wellFormed : buf.WellFormed
  view : buf.toStringView = bytes.map some

namespace Holds

variable {buf : Buffer} {bytes : List UInt8} (h : Holds buf bytes)

include h

theorem readableBytes_eq : buf.readableBytes = bytes.length := by
  rw [← h.wellFormed.length_toStringView, h.view, List.length_map]

theorem length_lt : bytes.length < 2^63 := by
  have hlength := h.wellFormed.length_lt
  have hwriter := h.wellFormed.writer_le
  have hreadable := h.wellFormed.readableBytes_eq
  have hbytes := h.readableBytes_eq
  omega

theorem chars_eq : chars buf.toStringView = bytes := by
  rw [h.view, chars_map_some]

theorem retrieve {n : ℕ} (hn : n ≤ bytes.length) :
    ∃ buf', buf.retrieve n = .ok buf' ∧ Holds buf' (bytes.drop n) := by
  obtain ⟨buf', hdone, hwf, hview⟩ := h.wellFormed.retrieve (h.readableBytes_eq ▸ hn)
  refine ⟨buf', hdone, hwf, ?_⟩
  rw [hview, h.view, List.map_drop]

theorem retrieveAsString {n : ℕ} (hn : n ≤ bytes.length) :
    ∃ buf', buf.retrieveAsString n = .ok (buf', (bytes.take n).map some) ∧ Holds buf' (bytes.drop n) := by
  obtain ⟨buf', hdone, hwf, hview⟩ := h.wellFormed.retrieveAsString (h.readableBytes_eq ▸ hn)
  refine ⟨buf', ?_, hwf, ?_⟩
  · rw [hdone, h.view, List.map_take]
  · rw [hview, h.view, List.map_drop]

end Holds

/-- A buffer that holds the bytes. -/
def bufferOf (bytes : List UInt8) : Buffer where
  buffer := List.replicate Buffer.kCheapPrepend none ++ bytes.map some
  readerIndex := Buffer.kCheapPrepend
  writerIndex := Buffer.kCheapPrepend + bytes.length

theorem holds_bufferOf {bytes : List UInt8} (h : Buffer.kCheapPrepend + bytes.length ≤ maxSize) :
    Holds (bufferOf bytes) bytes := by
  have hlength : (bufferOf bytes).buffer.length = Buffer.kCheapPrepend + bytes.length := by
    simp only [bufferOf, List.length_append, List.length_replicate, List.length_map]
  have hwf : (bufferOf bytes).WellFormed := by
    refine ⟨Nat.le_add_right _ _, ?_, ?_, ?_⟩
    · rw [hlength]
      exact Nat.le_refl _
    · rw [hlength]
      exact Nat.le_add_right _ _
    · rw [hlength]
      exact h
  refine ⟨hwf, ?_⟩
  rw [hwf.toStringView_eq]
  show ((bufferOf bytes).buffer.take (Buffer.kCheapPrepend + bytes.length)).drop Buffer.kCheapPrepend = _
  rw [← hlength, List.take_length]
  exact List.drop_left' List.length_replicate

/-! ## Lines behind what has been read -/

/-- The bytes are those that have been read, lines, and a rest without a CRLF. -/
structure Splits (bytes read : List UInt8) (ls : List (List UInt8)) (r : List UInt8) : Prop where
  join : read ++ unlines cr lf ls ++ r = bytes
  lines : ∀ l ∈ ls, PairFree cr lf l
  rest : PairFree cr lf r

theorem cr_ne_lf : cr ≠ lf := by decide

theorem length_line (read l : List UInt8) : (read ++ l ++ [cr, lf]).length = read.length + l.length + 2 := by
  simp only [List.length_append, List.length_cons, List.length_nil]

/-- Bytes that have not been read. -/
theorem splits_lines (bytes : List UInt8) :
    Splits bytes [] (lines cr lf bytes).1 (lines cr lf bytes).2 := by
  have hfree := pairFree_lines cr lf bytes
  refine ⟨?_, hfree.1, hfree.2⟩
  rw [List.nil_append, unlines_lines]

namespace Splits

variable {bytes read l r : List UInt8} {ls : List (List UInt8)}

/-- A line is read. -/
theorem next (h : Splits bytes read (l :: ls) r) : Splits bytes (read ++ l ++ [cr, lf]) ls r := by
  refine ⟨?_, fun m hm => h.lines m (List.mem_cons_of_mem l hm), h.rest⟩
  rw [← h.join, unlines_cons]
  simp only [List.append_assoc, List.cons_append, List.nil_append]

theorem read_le (h : Splits bytes read ls r) : read.length ≤ bytes.length := by
  rw [← h.join, List.append_assoc, List.length_append]
  exact Nat.le_add_right _ _

theorem drop_eq (h : Splits bytes read ls r) : bytes.drop read.length = unlines cr lf ls ++ r := by
  rw [← h.join, List.append_assoc, List.drop_left]

theorem length_lines_le (h : Splits bytes read ls r) : ls.length ≤ bytes.length := by
  have hlines := length_le_length_unlines cr lf ls
  rw [← h.join, List.length_append, List.length_append]
  omega

/-- The line that is read next is a segment. -/
theorem segment_line (h : Splits bytes read (l :: ls) r) :
    segment bytes read.length (read.length + l.length) = l := by
  unfold segment
  rw [List.drop_take, Nat.add_sub_cancel_left, h.drop_eq, unlines_cons, List.append_assoc, List.take_left]

end Splits

/-- Where the next CRLF is. -/
def crlfOf (read : List UInt8) (ls : List (List UInt8)) : Option ℕ :=
  ls.head?.map fun l => read.length + l.length

theorem findCRLF_eq {buf : Buffer} {bytes read r : List UInt8} {ls : List (List UInt8)}
    (hbuf : Holds buf bytes) (h : Splits bytes read ls r) :
    buf.findCRLF read.length = .ok (crlfOf read ls) := by
  have hread : read.length ≤ buf.readableBytes := by
    rw [hbuf.readableBytes_eq]
    exact h.read_le
  unfold Buffer.findCRLF
  rw [if_pos hread, hbuf.chars_eq, h.drop_eq]
  cases ls with
  | nil =>
    have hnone : findPair cr lf (unlines cr lf [] ++ r) = none := findPair_eq_none_iff.mpr h.rest
    rw [hnone]
    rfl
  | cons l ls =>
    have hl : PairFree cr lf l := h.lines l List.mem_cons_self
    rw [unlines_cons, List.append_assoc, List.cons_append, List.cons_append, findPair_append cr_ne_lf hl]
    rfl

namespace HttpResponseBuilder

@[simp] theorem convert_ok {α : Type} (x : α) : convert (.ok x) = .ok x := rfl

@[simp] theorem convert_error {α : Type} (e : NumberError) :
    convert (.error e : Except NumberError α) = .error (.number e) := rfl

@[simp] theorem access_ok {α : Type} (x : α) : access (.ok x) = .ok x := rfl

@[simp] theorem ok_bind {α β : Type} (x : α) (f : α → Except HttpFault β) :
    (Except.ok x >>= f) = f x := rfl

@[simp] theorem error_bind {α β : Type} (e : HttpFault) (f : α → Except HttpFault β) :
    (Except.error e >>= f) = .error e := rfl

/-- The builder at the beginning of lines. -/
def goTo (b : HttpResponseBuilder) (read : List UInt8) (ls : List (List UInt8)) : HttpResponseBuilder :=
  { b with readNumber := read.length, data := read.length, crlf := crlfOf read ls }

variable {b : HttpResponseBuilder} {bytes read l r : List UInt8} {ls : List (List UInt8)}

/-- `crlf` is at the end of the line behind what has been read; `data` may have been left elsewhere. -/
structure Stands (b : HttpResponseBuilder) (bytes read : List UInt8) (ls : List (List UInt8))
    (r : List UInt8) : Prop where
  holds : Holds b.buf bytes
  splits : Splits bytes read ls r
  crlf : b.crlf = crlfOf read ls
  data : b.data = b.readNumber
  within : b.readNumber ≤ bytes.length

theorem stands_goTo (hbuf : Holds b.buf bytes) (h : Splits bytes read ls r) :
    Stands (b.goTo read ls) bytes read ls r :=
  ⟨hbuf, h, rfl, rfl, h.read_le⟩

/-- From the end of a line to the next one. -/
theorem Stands.nextLine (h : Stands b bytes read (l :: ls) r) :
    b.nextLine = .ok (b.goTo (read ++ l ++ [cr, lf]) ls) := by
  obtain ⟨hbuf, hsplits, hcrlf, hdata, hwithin⟩ := h
  have hlt := hbuf.length_lt
  have hnext := findCRLF_eq hbuf hsplits.next
  have hle := hsplits.next.read_le
  have hlength := length_line read l
  have hnumber : addSize b.readNumber (addSize (subSize (read.length + l.length) b.data) 2) =
      read.length + l.length + 2 := by
    rw [hdata]
    unfold addSize subSize
    omega
  rw [hlength] at hnext hle
  unfold HttpResponseBuilder.nextLine
  rw [hcrlf]
  show (access (b.buf.findCRLF (read.length + l.length + 2)) >>= _) = _
  rw [hnext]
  show Except.ok { b with readNumber := addSize b.readNumber _, data := _, crlf := _ } = _
  rw [hnumber]
  unfold goTo
  rw [hlength]

theorem nextLine_goTo (hbuf : Holds b.buf bytes) (h : Splits bytes read (l :: ls) r) :
    (b.goTo read (l :: ls)).nextLine = .ok (b.goTo (read ++ l ++ [cr, lf]) ls) :=
  (stands_goTo hbuf h).nextLine

theorem setLine_goTo (hbuf : Holds b.buf bytes) (h : Splits bytes read (l :: ls) r) :
    (b.goTo read (l :: ls)).setLine = .ok ({ b with line := l }.goTo read (l :: ls)) := by
  have hline : segment (chars b.buf.toStringView) read.length (read.length + l.length) = l := by
    rw [hbuf.chars_eq]
    exact h.segment_line
  exact congrArg (fun line => Except.ok ({ b with line := line }.goTo read (l :: ls))) hline

/-! ## The status line and the headers -/

/-- The status of a status line. -/
def statusToken (line : List UInt8) : List UInt8 := (cut 32 (cut 32 line).2).1

/-- The headers of header lines. -/
def headersOf (hdrs : List (List UInt8)) : HeaderMap :=
  hdrs.foldl (fun headers line => headers.emplace (header line).1 (header line).2) []

/-- The lines up to an empty one are the headers. -/
theorem messageLoop_goTo (hbuf : Holds b.buf bytes) {hdrs : List (List UInt8)}
    (h : Splits bytes read (l :: (hdrs ++ [] :: ls)) r) (hhdrs : ∀ line ∈ hdrs, line ≠ []) {fuel : ℕ}
    (hfuel : hdrs.length < fuel) :
    messageLoop fuel (b.goTo read (l :: (hdrs ++ [] :: ls))) =
      .ok { b.goTo (read ++ unlines cr lf (l :: hdrs)) ([] :: ls) with
        line := []
        headers := hdrs.foldl (fun headers line => headers.emplace (header line).1 (header line).2)
          b.headers } := by
  induction hdrs generalizing b read l fuel with
  | nil =>
    cases fuel with
    | zero => exact absurd hfuel (Nat.not_lt_zero _)
    | succ fuel =>
      rw [List.nil_append] at h ⊢
      rw [messageLoop, nextLine_goTo hbuf h, ok_bind, setLine_goTo hbuf h.next, ok_bind]
      refine (if_pos rfl).trans ?_
      rw [unlines_cons, unlines_nil, ← List.append_assoc]
      rfl
  | cons line hdrs ih =>
    obtain ⟨hline, hhdrs⟩ := List.forall_mem_cons.mp hhdrs
    cases fuel with
    | zero => exact absurd hfuel (Nat.not_lt_zero _)
    | succ fuel =>
      rw [List.cons_append] at h ⊢
      rw [messageLoop, nextLine_goTo hbuf h, ok_bind, setLine_goTo hbuf h.next, ok_bind]
      refine (if_neg hline).trans ?_
      let b' := { b with
        line := line, headers := b.headers.emplace (header line).1 (header line).2 }
      have hrest := ih (b := b') hbuf h.next hhdrs (Nat.lt_of_succ_lt_succ hfuel)
      have hread : read ++ unlines cr lf (l :: line :: hdrs) =
          read ++ l ++ [cr, lf] ++ unlines cr lf (line :: hdrs) := by
        rw [unlines_cons]
        simp only [List.append_assoc, List.cons_append, List.nil_append]
      rw [hread]
      exact hrest

/-- Without an empty line, the loop runs into the end. -/
theorem messageLoop_error (hbuf : Holds b.buf bytes) (h : Splits bytes read (l :: ls) r)
    (hls : [] ∉ ls) {fuel : ℕ} (hfuel : ls.length < fuel) :
    messageLoop fuel (b.goTo read (l :: ls)) = .error .nullCrlf := by
  induction ls generalizing b read l fuel with
  | nil =>
    cases fuel with
    | zero => exact absurd hfuel (Nat.not_lt_zero _)
    | succ fuel =>
      rw [messageLoop, nextLine_goTo hbuf h, ok_bind]
      rfl
  | cons line ls ih =>
    obtain ⟨hline, hls⟩ := List.ne_and_not_mem_of_not_mem_cons hls
    cases fuel with
    | zero => exact absurd hfuel (Nat.not_lt_zero _)
    | succ fuel =>
      rw [messageLoop, nextLine_goTo hbuf h, ok_bind, setLine_goTo hbuf h.next, ok_bind]
      refine (if_neg (Ne.symm hline)).trans ?_
      let b' := { b with
        line := line, headers := b.headers.emplace (header line).1 (header line).2 }
      exact ih (b := b') hbuf h.next hls (Nat.lt_of_succ_lt_succ hfuel)

/-- The builder behind a status line with a valid status. -/
def withStatus (b : HttpResponseBuilder) (line : List UInt8) (status : ℤ) : HttpResponseBuilder :=
  { b with
    version := versionFromString (cut 32 line).1
    status := status
    statusMessage := (cut 32 (cut 32 (cut 32 line).2).2).1
    line := (cut 32 (cut 32 (cut 32 line).2).2).2
    code := .NoError }

theorem statusLine_goTo (hbuf : Holds b.buf bytes) (h : Splits bytes read (l :: ls) r) :
    (b.goTo read (l :: ls)).statusLine =
      (convert (stoi (statusToken l))).map (withStatus (b.goTo read (l :: ls)) l) := by
  have hline := setLine_goTo (b := { b with code := .Status }) hbuf h
  unfold statusLine
  show (setLine ({ b with code := .Status }.goTo read (l :: ls)) >>= _) = _
  rw [hline, ok_bind]
  show (convert (stoi (statusToken l)) >>= _) = _
  cases stoi (statusToken l) with
  | error e => rfl
  | ok status => rfl

/-- The builder behind the headers, at the empty line. -/
def headed (buf : Buffer) (line : List UInt8) (hdrs ls : List (List UInt8)) (status : ℤ) :
    HttpResponseBuilder :=
  { ((initial buf).goTo (unlines cr lf (line :: hdrs)) ([] :: ls)).withStatus line status with
    line := []
    headers := headersOf hdrs }

variable {buf : Buffer} {hdrs : List (List UInt8)} {status : ℤ}

theorem stands_headed (status : ℤ) (hbuf : Holds buf bytes)
    (h : Splits bytes [] (l :: (hdrs ++ [] :: ls)) r) :
    Stands (headed buf l hdrs ls status) bytes (unlines cr lf (l :: hdrs)) ([] :: ls) r := by
  have hsplits : Splits bytes (unlines cr lf (l :: hdrs)) ([] :: ls) r := by
    refine ⟨?_, fun m hm => h.lines m ?_, h.rest⟩
    · rw [← unlines_append, ← h.join, List.nil_append]
      rfl
    · exact List.mem_cons_of_mem l (List.mem_append_right hdrs hm)
  exact stands_goTo (b := { withStatus (initial buf) l status with line := [], headers := headersOf hdrs })
    hbuf hsplits

/-- The parse begins at the first line. -/
theorem parse_eq (hbuf : Holds buf bytes) (h : Splits bytes [] ls r) :
    (initial buf).parse =
      (do
        let b ← ((initial buf).goTo [] ls).statusLine
        if b.code ≠ .NoError then return b
        else
          let b ← b.messageLine
          if b.code ≠ .NoError then return b else b.bodyLine) := by
  have hfind : (initial buf).buf.findCRLF 0 = .ok (crlfOf [] ls) := findCRLF_eq hbuf h
  unfold parse
  rw [hfind, access_ok, ok_bind]
  rfl

theorem parse_of_no_line (hbuf : Holds buf bytes) (h : Splits bytes [] [] r) :
    (initial buf).parse = .error .nullCrlf := by
  rw [parse_eq hbuf h]
  rfl

theorem parse_of_status_error (hbuf : Holds buf bytes) (h : Splits bytes [] (l :: ls) r)
    {e : NumberError} (hstatus : stoi (statusToken l) = .error e) :
    (initial buf).parse = .error (.number e) := by
  rw [parse_eq hbuf h, statusLine_goTo hbuf h, hstatus]
  rfl

/-- What `parse` does behind a status line. -/
theorem parse_of_status (hbuf : Holds buf bytes) (h : Splits bytes [] (l :: ls) r)
    (hstatus : stoi (statusToken l) = .ok status) :
    (initial buf).parse =
      (do
        let b ← messageLoop (buf.readableBytes + 1)
          { ((initial buf).withStatus l status).goTo [] (l :: ls) with code := .Messages }
        bodyLine { b with code := .NoError }) := by
  rw [parse_eq hbuf h, statusLine_goTo hbuf h, hstatus]
  show (messageLine _ >>= _) = _
  unfold messageLine
  show ((messageLoop (buf.readableBytes + 1)
    { ((initial buf).withStatus l status).goTo [] (l :: ls) with code := .Messages } >>= _) >>= _) = _
  cases messageLoop (buf.readableBytes + 1)
    { ((initial buf).withStatus l status).goTo [] (l :: ls) with code := .Messages } with
  | error e => rfl
  | ok b => rfl

theorem parse_of_no_end (hbuf : Holds buf bytes) (h : Splits bytes [] (l :: ls) r)
    (hstatus : stoi (statusToken l) = .ok status) (hls : [] ∉ ls) :
    (initial buf).parse = .error .nullCrlf := by
  have hfuel : ls.length < buf.readableBytes + 1 := by
    have hle := h.length_lines_le
    rw [List.length_cons] at hle
    rw [hbuf.readableBytes_eq]
    omega
  have hloop := messageLoop_error (b := { (initial buf).withStatus l status with code := .Messages })
    hbuf h hls hfuel
  rw [parse_of_status hbuf h hstatus]
  show (messageLoop _ ({ (initial buf).withStatus l status with code := .Messages }.goTo [] (l :: ls)) >>=
    _) = _
  rw [hloop]
  rfl

/-- The headers are read, and the body is left. -/
theorem parse_of_headers (hbuf : Holds buf bytes) (h : Splits bytes [] (l :: (hdrs ++ [] :: ls)) r)
    (hstatus : stoi (statusToken l) = .ok status) (hhdrs : ∀ line ∈ hdrs, line ≠ []) :
    (initial buf).parse = (headed buf l hdrs ls status).bodyLine := by
  have hfuel : hdrs.length < buf.readableBytes + 1 := by
    have hle := h.length_lines_le
    rw [List.length_cons, List.length_append, List.length_cons] at hle
    rw [hbuf.readableBytes_eq]
    omega
  have hloop := messageLoop_goTo (b := { (initial buf).withStatus l status with code := .Messages })
    hbuf h hhdrs hfuel
  rw [parse_of_status hbuf h hstatus]
  show (messageLoop _ ({ (initial buf).withStatus l status with code := .Messages }.goTo []
    (l :: (hdrs ++ [] :: ls))) >>= _) = _
  rw [hloop]
  rfl

/-! ## The body -/

variable {len : ℕ}

theorem bodyLine_of_chunked
    (h : b.headers.lookup (bytesOf "Transfer-Encoding") = some (bytesOf "chunked")) :
    b.bodyLine = transferEncoding { b with code := .Body } := if_pos h

theorem bodyLine_of_contentLength {value : List UInt8}
    (hchunked : b.headers.lookup (bytesOf "Transfer-Encoding") ≠ some (bytesOf "chunked"))
    (hlength : b.headers.lookup (bytesOf "Content-Length") = some value)
    (hvalue : stoul 10 value = .ok len) :
    b.bodyLine = contentLength { b with code := .Body } len := by
  unfold bodyLine
  dsimp only
  rw [if_neg hchunked, hlength]
  dsimp only
  rw [hvalue]
  rfl

theorem needed_eq (h : b.readNumber + len + 2 < 2^64) : b.needed len = b.readNumber + len + 2 := by
  unfold needed addSize
  omega

theorem sum_eq (h : b.readNumber + len + 2 < 2^64) : b.sum len = b := by
  have hwrapped : (b.wrapped || decide (2^64 ≤ b.readNumber + len + 2)) = b.wrapped := by
    rw [decide_eq_false (Nat.not_le.mpr h), Bool.or_false]
  unfold sum
  rw [hwrapped]

/-- A sum that wraps around is less than what has been read, so the test takes the bytes for there. -/
theorem needed_le_of_wraps (hread : b.readNumber + 2 ≤ bytes.length) (hlen : len < 2^64)
    (hlt : bytes.length < 2^63) (hwraps : 2^64 ≤ b.readNumber + len + 2) :
    b.needed len ≤ bytes.length ∧ bytes.length < len := by
  unfold needed addSize
  omega

theorem contentLength_waits (hbuf : Holds b.buf bytes) (hsum : b.readNumber + len + 2 < 2^64)
    (hshort : bytes.length < b.readNumber + len + 2) :
    b.contentLength len = .ok { b with code := .WaitForData } := by
  have hneeded := needed_eq (b := { b with code := .WaitForData }) hsum
  have hsame := sum_eq (b := { b with code := .WaitForData }) hsum
  unfold contentLength
  dsimp only at hneeded hsame ⊢
  rw [hneeded, hbuf.readableBytes_eq, if_pos hshort, hsame]

theorem contentLength_takes (hbuf : Holds b.buf bytes) (hlong : b.readNumber + len + 2 ≤ bytes.length) :
    ∃ buf, Holds buf (bytes.drop (b.readNumber + 2 + len)) ∧
      b.contentLength len =
        .ok { b with buf := buf, body := (bytes.drop (b.readNumber + 2)).take len, code := .NoError } := by
  have hlt := hbuf.length_lt
  have hsum : b.readNumber + len + 2 < 2^64 := by omega
  have hneeded := needed_eq (b := { b with code := .WaitForData }) hsum
  have hsame := sum_eq (b := { b with code := .WaitForData }) hsum
  have hskip : addSize b.readNumber 2 = b.readNumber + 2 := addSize_eq (by omega)
  have hskipped : b.readNumber + 2 ≤ bytes.length := by omega
  have hlength : len ≤ (bytes.drop (b.readNumber + 2)).length := by
    rw [List.length_drop]
    omega
  obtain ⟨buf₁, hretrieve, hbuf₁⟩ := hbuf.retrieve hskipped
  obtain ⟨buf₂, hstring, hbuf₂⟩ := hbuf₁.retrieveAsString hlength
  rw [List.drop_drop] at hbuf₂
  refine ⟨buf₂, hbuf₂, ?_⟩
  unfold contentLength
  dsimp only at hneeded hsame ⊢
  rw [hneeded, hbuf.readableBytes_eq, if_neg (Nat.not_lt.mpr hlong), hskip, hretrieve, access_ok, ok_bind,
    hstring, access_ok, ok_bind, hsame]
  dsimp only
  rw [chars_map_some]
  rfl

theorem contentLength_wraps (hbuf : Holds b.buf bytes) (hread : b.readNumber + 2 ≤ bytes.length)
    (hlen : len < 2^64) (hwraps : 2^64 ≤ b.readNumber + len + 2) :
    b.contentLength len = .error (.buffer .assertion) := by
  have hlt := hbuf.length_lt
  obtain ⟨hneeded, hbig⟩ := needed_le_of_wraps (b := { b with code := .WaitForData }) hread hlen hlt hwraps
  have hskip : addSize b.readNumber 2 = b.readNumber + 2 := addSize_eq (by omega)
  obtain ⟨buf₁, hretrieve, hbuf₁⟩ := hbuf.retrieve hread
  have hstring : buf₁.retrieveAsString len = .error .assertion := by
    have hlength : ¬ len ≤ buf₁.readableBytes := by
      rw [hbuf₁.readableBytes_eq, List.length_drop]
      omega
    unfold Buffer.retrieveAsString
    exact if_neg hlength
  unfold contentLength
  dsimp only at hneeded ⊢
  rw [hbuf.readableBytes_eq, if_neg (Nat.not_lt.mpr hneeded), hskip, hretrieve, access_ok, ok_bind, hstring]
  rfl

/-! ### Chunks -/

variable {size chunk : List UInt8} {fuel : ℕ}

/-- The builder behind the line of a size. -/
def sized (b : HttpResponseBuilder) (read l size : List UInt8) (ls : List (List UInt8)) :
    HttpResponseBuilder :=
  { b with line := size }.goTo (read ++ l ++ [cr, lf] ++ size ++ [cr, lf]) ls

/-- Without a line for the size, the loop waits. -/
theorem Stands.transferLoop_nil (h : Stands b bytes read [l] r) :
    transferLoop (fuel + 1) b = .ok (b.goTo (read ++ l ++ [cr, lf]) []) := by
  rw [transferLoop, h.nextLine, ok_bind]
  rfl

theorem Stands.sized (h : Stands b bytes read (l :: size :: ls) r) :
    Stands (b.sized read l size ls) bytes (read ++ l ++ [cr, lf] ++ size ++ [cr, lf]) ls r :=
  stands_goTo h.holds h.splits.next.next

/-- So it does without a CRLF behind the size. -/
theorem Stands.transferLoop_size (h : Stands b bytes read [l, size] r) :
    transferLoop (fuel + 1) b = .ok (b.sized read l size []) := by
  have hline := setLine_goTo h.holds h.splits.next
  have hnext := (stands_goTo (b := { b with line := size }) h.holds h.splits.next).nextLine
  rw [transferLoop, h.nextLine, ok_bind]
  refine (if_neg (fun hnone => nomatch hnone)).trans ?_
  rw [hline, ok_bind, hnext]
  rfl

/-- What the loop does with a size. -/
theorem Stands.transferLoop_eq (h : Stands b bytes read (l :: size :: chunk :: ls) r) :
    transferLoop (fuel + 1) b =
      (do
        let b := b.sized read l size (chunk :: ls)
        let len ← convert (stoul 16 size)
        if len = 0 then
          let b ← b.nextLine
          if b.crlf = none then return b
          else
            let buf ← access (b.buf.retrieve b.readNumber)
            return { b with buf := buf, code := .NoError }
        else if b.buf.readableBytes < b.needed len then return b.sum len
        else
          let b ← (b.sum len).takeChunk len
          transferLoop fuel b) := by
  have hline := setLine_goTo h.holds h.splits.next
  have hnext := (stands_goTo (b := { b with line := size }) h.holds h.splits.next).nextLine
  rw [transferLoop, h.nextLine, ok_bind]
  refine (if_neg (fun hnone => nomatch hnone)).trans ?_
  rw [hline, ok_bind, hnext]
  rfl

theorem Stands.transferLoop_error (h : Stands b bytes read (l :: size :: chunk :: ls) r)
    {e : NumberError} (hsize : stoul 16 size = .error e) :
    transferLoop (fuel + 1) b = .error (.number e) := by
  rw [h.transferLoop_eq, hsize]
  rfl

/-- Behind the last chunk the loop waits for one more CRLF than there is. -/
theorem Stands.transferLoop_last_nil (h : Stands b bytes read [l, size, chunk] r)
    (hsize : stoul 16 size = .ok 0) :
    transferLoop (fuel + 1) b =
      .ok ((b.sized read l size [chunk]).goTo
        (read ++ l ++ [cr, lf] ++ size ++ [cr, lf] ++ chunk ++ [cr, lf]) []) := by
  have hnext := h.sized.nextLine
  rw [h.transferLoop_eq, hsize]
  dsimp only
  rw [convert_ok, ok_bind]
  refine (if_pos rfl).trans ?_
  rw [hnext]
  rfl

/-- With one, what has been read is retrieved. -/
theorem Stands.transferLoop_last (h : Stands b bytes read (l :: size :: chunk :: ls) r) (hls : ls ≠ [])
    (hsize : stoul 16 size = .ok 0) (fuel : ℕ) :
    ∃ buf, Holds buf (unlines cr lf ls ++ r) ∧
      transferLoop (fuel + 1) b =
        .ok { (b.sized read l size (chunk :: ls)).goTo
          (read ++ l ++ [cr, lf] ++ size ++ [cr, lf] ++ chunk ++ [cr, lf]) ls with
          buf := buf, code := .NoError } := by
  have hnext := h.sized.nextLine
  have hsplits := h.splits.next.next.next
  obtain ⟨buf, hretrieve, hbuf⟩ := h.holds.retrieve hsplits.read_le
  rw [hsplits.drop_eq] at hbuf
  refine ⟨buf, hbuf, ?_⟩
  obtain ⟨line, ls, rfl⟩ := List.exists_cons_of_ne_nil hls
  rw [h.transferLoop_eq, hsize]
  dsimp only
  rw [convert_ok, ok_bind]
  refine (if_pos rfl).trans ?_
  rw [hnext, ok_bind]
  refine (if_neg (fun hnone => nomatch hnone)).trans ?_
  show (access (b.buf.retrieve
    (read ++ l ++ [cr, lf] ++ size ++ [cr, lf] ++ chunk ++ [cr, lf]).length) >>= _) = _
  rw [hretrieve]
  rfl

/-- A chunk that is not there in full is waited for. -/
theorem Stands.transferLoop_waits (h : Stands b bytes read (l :: size :: chunk :: ls) r)
    (hsize : stoul 16 size = .ok len) (hlen : len ≠ 0)
    (hsum : (read ++ l ++ [cr, lf] ++ size ++ [cr, lf]).length + len + 2 < 2^64)
    (hshort : bytes.length < (read ++ l ++ [cr, lf] ++ size ++ [cr, lf]).length + len + 2) :
    transferLoop (fuel + 1) b = .ok (b.sized read l size (chunk :: ls)) := by
  have hneeded := needed_eq (b := b.sized read l size (chunk :: ls)) hsum
  have hsame := sum_eq (b := b.sized read l size (chunk :: ls)) hsum
  have hreadable : (b.sized read l size (chunk :: ls)).buf.readableBytes = bytes.length :=
    h.holds.readableBytes_eq
  rw [h.transferLoop_eq, hsize]
  dsimp only
  rw [convert_ok, ok_bind]
  refine (if_neg hlen).trans ?_
  rw [hneeded, hreadable]
  refine (if_pos hshort).trans ?_
  rw [hsame]
  rfl

/-- The builder behind the data of a chunk: `crlf` is still at the end of the chunk's first line. -/
def taken (b : HttpResponseBuilder) (bytes read : List UInt8) (ls : List (List UInt8)) (len : ℕ) :
    HttpResponseBuilder :=
  { b.goTo read ls with
    body := b.body ++ (bytes.drop read.length).take len
    readNumber := read.length + len
    data := read.length + len }

theorem takeChunk_goTo (hbuf : Holds b.buf bytes) (hlong : read.length + len ≤ bytes.length) :
    (b.goTo read ls).takeChunk len = .ok (b.taken bytes read ls len) := by
  have hlt := hbuf.length_lt
  have hchunk : segment (chars b.buf.toStringView) read.length (read.length + len) =
      (bytes.drop read.length).take len := by
    unfold segment
    rw [hbuf.chars_eq, List.drop_take, Nat.add_sub_cancel_left]
  have hnumber : addSize read.length len = read.length + len := addSize_eq (by omega)
  have hreadable : (b.goTo read ls).buf.readableBytes = bytes.length := hbuf.readableBytes_eq
  have hfits : ¬ maxSize < len := by
    unfold maxSize
    omega
  unfold takeChunk
  rw [hreadable]
  refine (if_neg hfits).trans ((if_pos hlong).trans ?_)
  show Except.ok { b.goTo read ls with
    body := b.body ++ segment (chars b.buf.toStringView) read.length (read.length + len)
    readNumber := addSize read.length len
    data := addSize read.length len } = _
  rw [hchunk, hnumber]
  rfl

/-- A chunk that is there is taken, and the loop goes on. -/
theorem Stands.transferLoop_takes (h : Stands b bytes read (l :: size :: chunk :: ls) r)
    (hsize : stoul 16 size = .ok len) (hlen : len ≠ 0)
    (hlong : (read ++ l ++ [cr, lf] ++ size ++ [cr, lf]).length + len + 2 ≤ bytes.length) :
    transferLoop (fuel + 1) b =
      transferLoop fuel ((b.sized read l size (chunk :: ls)).taken bytes
        (read ++ l ++ [cr, lf] ++ size ++ [cr, lf]) (chunk :: ls) len) := by
  have hlt := h.holds.length_lt
  have hsum : (b.sized read l size (chunk :: ls)).readNumber + len + 2 < 2^64 := by
    show (read ++ l ++ [cr, lf] ++ size ++ [cr, lf]).length + len + 2 < 2^64
    omega
  have hneeded := needed_eq hsum
  have hsame := sum_eq hsum
  have hreadable : (b.sized read l size (chunk :: ls)).buf.readableBytes = bytes.length :=
    h.holds.readableBytes_eq
  have htake : ({ b with line := size }.goTo _ (chunk :: ls)).takeChunk len = _ :=
    takeChunk_goTo h.holds (Nat.le_of_succ_le (Nat.le_of_succ_le hlong))
  rw [h.transferLoop_eq, hsize]
  dsimp only
  rw [convert_ok, ok_bind]
  refine (if_neg hlen).trans ?_
  rw [hneeded, hreadable]
  refine (if_neg (Nat.not_lt.mpr hlong)).trans ?_
  rw [hsame]
  show (takeChunk ({ b with line := size }.goTo _ _) len >>= _) = _
  rw [htake]
  rfl

/-- From there, the line that the chunk's data begin with is read next. -/
theorem Stands.taken (h : Stands b bytes read ls r) (hlong : read.length + len ≤ bytes.length) :
    Stands (b.taken bytes read ls len) bytes read ls r :=
  ⟨h.holds, h.splits, rfl, rfl, hlong⟩

/-- A chunk whose sum wraps around is longer than any string. -/
theorem Stands.transferLoop_wraps (h : Stands b bytes read (l :: size :: chunk :: ls) r)
    (hsize : stoul 16 size = .ok len) (hlen : len < 2^64)
    (hwraps : 2^64 ≤ (read ++ l ++ [cr, lf] ++ size ++ [cr, lf]).length + len + 2) :
    transferLoop (fuel + 1) b = .error .lengthError := by
  have hlt := h.holds.length_lt
  have hread : (b.sized read l size (chunk :: ls)).readNumber + 2 ≤ bytes.length := by
    have hnext := h.splits.next.next.next.read_le
    show (read ++ l ++ [cr, lf] ++ size ++ [cr, lf]).length + 2 ≤ bytes.length
    rw [List.length_append, List.length_append, List.length_cons, List.length_cons] at hnext
    omega
  obtain ⟨hneeded, hbig⟩ := needed_le_of_wraps hread hlen hlt hwraps
  have hreadable : (b.sized read l size (chunk :: ls)).buf.readableBytes = bytes.length :=
    h.holds.readableBytes_eq
  have hpos : len ≠ 0 := by omega
  have htake : ((b.sized read l size (chunk :: ls)).sum len).takeChunk len = .error .lengthError := by
    refine if_pos ?_
    change (read ++ l ++ [cr, lf] ++ size ++ [cr, lf]).length + 2 ≤ bytes.length at hread
    unfold maxSize
    omega
  rw [h.transferLoop_eq, hsize]
  dsimp only
  rw [convert_ok, ok_bind]
  refine (if_neg hpos).trans ?_
  rw [hreadable]
  refine (if_neg (Nat.not_lt.mpr hneeded)).trans ?_
  rw [htake]
  rfl

end HttpResponseBuilder

end Hulatang
