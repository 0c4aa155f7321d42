import Hulatang.Http.Rendered

/-!
# Chunked responses

`transferEncoding` goes from a chunk to the next one by the CRLF that it has found from the beginning of
the chunk, and behind the last chunk it waits for one more. So a chunk that has a CRLF in its data is in
general not read as it was written, and a response with no CRLF behind it is not read at all. Where the
data of the chunks have none, and one stands behind the response, the response is read as it was written.
-/

namespace Hulatang

/-- A chunk, with its size in hexadecimal digits. -/
structure Chunk where
  size : List UInt8
  data : List UInt8
  data_ne : data ≠ []
  size_eq : numeral 16 size = some data.length

/-- A well-formed response with `Transfer-Encoding: chunked`. -/
structure ChunkedResponse where
  status : ResponseStatus
  headers : ResponseHeaders
  chunked : (bytesOf "Transfer-Encoding", bytesOf "chunked") ∈ headers.headers
  chunks : List Chunk

def Chunk.bytes (c : Chunk) : List UInt8 := c.size ++ cr :: lf :: (c.data ++ [cr, lf])

namespace ChunkedResponse

/-- The chunks, and `0` CRLF CRLF. -/
def chunkBytes (chunks : List Chunk) : List UInt8 := chunks.flatMap Chunk.bytes ++ [48, cr, lf, cr, lf]

/-- What is sent. -/
def bytes (response : ChunkedResponse) : List UInt8 :=
  unlines cr lf (blockLines response.status response.headers) ++ chunkBytes response.chunks

def body (response : ChunkedResponse) : List UInt8 := response.chunks.flatMap Chunk.data

/-- `buildFromBuffer` reports no error, returns the body, and leaves the rest. -/
def Decodes (response : ChunkedResponse) (buf : Buffer) (rest : List UInt8) : Prop :=
  ∃ buf' r, buildFromBuffer buf = .ok (buf', .ok r) ∧ r.body = response.body ∧
    buf'.toStringView = rest.map some

/-! ## The lines of chunks -/

/-- The lines of chunks whose data have no CRLF. -/
def chunkLines (chunks : List Chunk) : List (List UInt8) := chunks.flatMap fun c => [c.size, c.data]

theorem chunkLines_cons (c : Chunk) (chunks : List Chunk) :
    chunkLines (c :: chunks) = c.size :: c.data :: chunkLines chunks := rfl

theorem unlines_chunkLines (chunks : List Chunk) :
    unlines cr lf (chunkLines chunks) = chunks.flatMap Chunk.bytes := by
  induction chunks with
  | nil => rfl
  | cons c chunks ih =>
    rw [chunkLines_cons, unlines_cons, unlines_cons, ih, List.flatMap_cons, Chunk.bytes]
    simp only [List.append_assoc, List.cons_append, List.nil_append]

theorem length_chunkLines (chunks : List Chunk) : (chunkLines chunks).length = 2 * chunks.length := by
  induction chunks with
  | nil => rfl
  | cons c chunks ih =>
    rw [chunkLines_cons, List.length_cons, List.length_cons, List.length_cons, ih]
    omega

theorem size_free (c : Chunk) : PairFree cr lf c.size :=
  pairFree_of_not_mem (not_mem_of_numeral c.size_eq (by decide))

theorem splits_chunks {chunks : List Chunk} (hchunks : ∀ c ∈ chunks, PairFree cr lf c.data)
    {rest r : List UInt8} {ls : List (List UInt8)} (hrest : Splits rest [] ls r) :
    Splits (chunkBytes chunks ++ rest) [] (chunkLines chunks ++ [48] :: [] :: ls) r := by
  refine ⟨?_, fun l hl => ?_, hrest.rest⟩
  · rw [← hrest.join, unlines_append, unlines_chunkLines, unlines_cons, unlines_cons, chunkBytes]
    simp only [List.append_assoc, List.cons_append, List.nil_append]
  · rcases List.mem_append.mp hl with hl | hl
    · obtain ⟨c, hc, hl⟩ := List.mem_flatMap.mp hl
      rcases List.mem_cons.mp hl with rfl | hl
      · exact size_free c
      · obtain rfl := List.mem_singleton.mp hl
        exact hchunks c hc
    · rcases List.mem_cons.mp hl with rfl | hl
      · decide
      · rcases List.mem_cons.mp hl with rfl | hl
        · exact pairFree_nil
        · exact hrest.lines l hl

end ChunkedResponse

namespace HttpResponseBuilder

variable {b b' : HttpResponseBuilder} {bytes read l r : List UInt8} {ls : List (List UInt8)} {fuel : ℕ}

/-- Every chunk is taken, and the loop ends with a line behind the last one. -/
theorem transferLoop_chunks {chunks : List Chunk}
    (h : Stands b bytes read (l :: (ChunkedResponse.chunkLines chunks ++ [48] :: [] :: ls)) r)
    (hls : ls ≠ []) (hfuel : chunks.length < fuel) :
    ∃ b', transferLoop fuel b = .ok b' ∧ b'.code = .NoError ∧
      b'.body = b.body ++ chunks.flatMap Chunk.data ∧ Holds b'.buf (unlines cr lf ls ++ r) := by
  induction chunks generalizing b read l fuel with
  | nil =>
    cases fuel with
    | zero => exact absurd hfuel (Nat.not_lt_zero _)
    | succ fuel =>
      obtain ⟨buf, hbuf, hdone⟩ := Stands.transferLoop_last h hls (by decide) fuel
      exact ⟨_, hdone, rfl, (List.append_nil _).symm, hbuf⟩
  | cons c chunks ih =>
    cases fuel with
    | zero => exact absurd hfuel (Nat.not_lt_zero _)
    | succ fuel =>
      rw [ChunkedResponse.chunkLines_cons, List.cons_append, List.cons_append] at h
      have hlt := h.holds.length_lt
      have hnext := h.splits.next.next
      have hread := hnext.next.read_le
      rw [length_line] at hread
      have hsize : stoul 16 c.size = .ok c.data.length := stoul_of_numeral c.size_eq (by omega)
      have hpos : c.data.length ≠ 0 := fun hzero => c.data_ne (List.length_eq_zero_iff.mp hzero)
      -- What stands behind the size is the data.
      have hdata : (bytes.drop (read ++ l ++ [cr, lf] ++ c.size ++ [cr, lf]).length).take c.data.length =
          c.data := by
        rw [hnext.drop_eq, unlines_cons, List.append_assoc, List.take_left]
      have htaken : Stands (taken _ bytes _ _ c.data.length) bytes _ _ r := h.sized.taken (by omega)
      obtain ⟨b', hdone, hcode, hbody, hbuf⟩ := ih htaken (Nat.lt_of_succ_lt_succ hfuel)
      refine ⟨b', ?_, hcode, ?_, hbuf⟩
      · rw [h.transferLoop_takes hsize hpos (by omega), hdone]
      · rw [hbody, List.flatMap_cons, ← List.append_assoc]
        show b.body ++ (bytes.drop _).take _ ++ _ = _
        rw [hdata]

/-- The loop ends without an error only in front of a line. -/
theorem transferLoop_noError (h : Stands b bytes read (l :: ls) r) (hcode : b.code ≠ .NoError)
    (hdone : transferLoop fuel b = .ok b') (hok : b'.code = .NoError) :
    ∃ ms, ms ≠ [] ∧ Holds b'.buf (unlines cr lf ms ++ r) := by
  induction fuel generalizing b read l ls with
  | zero => cases hdone
  | succ fuel ih =>
    match ls with
    | [] =>
      rw [h.transferLoop_nil] at hdone
      cases hdone
      exact absurd hok hcode
    | [size] =>
      rw [h.transferLoop_size] at hdone
      cases hdone
      exact absurd hok hcode
    | size :: chunk :: ls =>
      cases hsize : stoul 16 size with
      | error e =>
        rw [h.transferLoop_error hsize] at hdone
        cases hdone
      | ok len =>
        by_cases hlen : len = 0
        · rw [hlen] at hsize
          by_cases hls : ls = []
          · subst hls
            rw [h.transferLoop_last_nil hsize] at hdone
            cases hdone
            exact absurd hok hcode
          · obtain ⟨buf, hbuf, hlast⟩ := h.transferLoop_last hls hsize fuel
            rw [hlast] at hdone
            cases hdone
            exact ⟨ls, hls, hbuf⟩
        · by_cases hsum : (read ++ l ++ [cr, lf] ++ size ++ [cr, lf]).length + len + 2 < 2^64
          case neg =>
            rw [h.transferLoop_wraps hsize (stoul_lt hsize) (Nat.le_of_not_lt hsum)] at hdone
            cases hdone
          by_cases hshort : bytes.length < (read ++ l ++ [cr, lf] ++ size ++ [cr, lf]).length + len + 2
          · rw [h.transferLoop_waits hsize hlen hsum hshort] at hdone
            cases hdone
            exact absurd hok hcode
          · -- The loop goes on with the code as it was.
            have hlong := Nat.le_of_not_lt hshort
            rw [h.transferLoop_takes hsize hlen hlong] at hdone
            exact ih (h.sized.taken (Nat.le_of_succ_le (Nat.le_of_succ_le hlong))) hcode hdone

end HttpResponseBuilder

namespace ChunkedResponse

variable {response : ChunkedResponse} {buf : Buffer} {rest r : List UInt8} {ls : List (List UInt8)}

/-- The builder behind the header block. -/
def builder (response : ChunkedResponse) (buf : Buffer) (ls : List (List UInt8)) : HttpResponseBuilder :=
  { behindBlock buf response.status response.headers ls with code := .WaitForData }

theorem stands_builder (hbuf : Holds buf (response.bytes ++ rest))
    (h : Splits (chunkBytes response.chunks ++ rest) [] ls r) :
    (response.builder buf ls).Stands (response.bytes ++ rest)
      (unlines cr lf (response.status.line :: response.headers.headers.map headerLine)) ([] :: ls) r := by
  unfold bytes at hbuf ⊢
  rw [List.append_assoc] at hbuf ⊢
  obtain ⟨hholds, hsplits, hcrlf, hdata, hwithin⟩ :=
    HttpResponseBuilder.stands_headed response.status.code hbuf
      (splits_block response.status response.headers h)
  exact ⟨hholds, hsplits, hcrlf, hdata, hwithin⟩

theorem parse_eq (hbuf : Holds buf (response.bytes ++ rest))
    (h : Splits (chunkBytes response.chunks ++ rest) [] ls r) :
    (HttpResponseBuilder.initial buf).parse =
      HttpResponseBuilder.transferLoop (buf.readableBytes + 1) (response.builder buf ls) := by
  have hheaders := headers_behindBlock response.status response.headers buf ls
  unfold bytes at hbuf
  rw [List.append_assoc] at hbuf
  rw [parse_of_block hbuf h]
  refine HttpResponseBuilder.bodyLine_of_chunked ?_
  rw [hheaders, response.headers.lookup_eq_some_iff]
  exact response.chunked

/-- Without a CRLF in the data of a chunk, and with one behind the response, it is decoded. -/
theorem decodes_of_free (hbuf : Holds buf (response.bytes ++ rest))
    (hchunks : ∀ c ∈ response.chunks, PairFree cr lf c.data) (hrest : ¬ PairFree cr lf rest) :
    response.Decodes buf rest := by
  have hsplits := splits_lines rest
  have hjoin := unlines_lines cr lf rest
  have hls : (lines cr lf rest).1 ≠ [] := by
    intro hnil
    rw [hnil] at hjoin
    exact hrest (hjoin ▸ hsplits.rest)
  have hchunked := splits_chunks hchunks hsplits
  have hstands := stands_builder hbuf hchunked
  have hfuel : response.chunks.length < buf.readableBytes + 1 := by
    have hle := hstands.splits.length_lines_le
    rw [List.length_cons, List.length_append, length_chunkLines] at hle
    rw [hbuf.readableBytes_eq]
    omega
  obtain ⟨b, hdone, hcode, hbody, hholds⟩ :=
    HttpResponseBuilder.transferLoop_chunks hstands hls hfuel
  refine ⟨b.buf, ⟨b.headers, b.body, b.status, b.version⟩, ?_, hbody, ?_⟩
  · unfold buildFromBuffer
    rw [parse_eq hbuf hchunked, hdone]
    show Except.ok (b.buf, b.result) = _
    unfold HttpResponseBuilder.result
    rw [if_pos hcode]
  · rw [hholds.view, hjoin]

/-- Without one behind it, it is not. -/
theorem not_pairFree_of_decodes (hbuf : Holds buf (response.bytes ++ rest))
    (h : response.Decodes buf rest) : ¬ PairFree cr lf rest := by
  obtain ⟨buf', r, hbuild, -, hview⟩ := h
  have hsplits := splits_lines (chunkBytes response.chunks ++ rest)
  have hstands := stands_builder hbuf hsplits
  unfold buildFromBuffer at hbuild
  rw [parse_eq hbuf hsplits] at hbuild
  cases hdone : HttpResponseBuilder.transferLoop (buf.readableBytes + 1)
      (response.builder buf (lines cr lf (chunkBytes response.chunks ++ rest)).1) with
  | error fault =>
    rw [hdone] at hbuild
    cases hbuild
  | ok b =>
    rw [hdone] at hbuild
    obtain ⟨rfl, hresult⟩ := Prod.mk.inj (Except.ok.inj hbuild)
    have hcode : b.code = .NoError := by
      by_contra hne
      unfold HttpResponseBuilder.result at hresult
      rw [if_neg hne] at hresult
      cases hresult
    obtain ⟨ms, hms, hholds⟩ := HttpResponseBuilder.transferLoop_noError hstands
      (fun hok => nomatch hok) hdone hcode
    -- What stays begins with a line.
    have hrest : unlines cr lf ms ++ (lines cr lf (chunkBytes response.chunks ++ rest)).2 = rest :=
      List.map_injective_iff.mpr (fun _ _ h => Option.some.inj h) (hholds.view.symm.trans hview)
    rw [← hrest]
    exact not_pairFree_unlines hms

/-- A chunked response whose chunks have no CRLF in their data is decoded exactly when a CRLF stands behind
it; without one behind it, none is. -/
theorem decodes_chunked (response : ChunkedResponse) {buf : Buffer} {rest : List UInt8}
    (hbuf : Holds buf (response.bytes ++ rest)) :
    ((∀ c ∈ response.chunks, PairFree cr lf c.data) → ¬ PairFree cr lf rest → response.Decodes buf rest) ∧
      (response.Decodes buf rest → ¬ PairFree cr lf rest) :=
  ⟨decodes_of_free hbuf, not_pairFree_of_decodes hbuf⟩

-- A CRLF in the data may go unnoticed: the data of these two chunks are misread to the same body.
example :
    (buildFromBuffer (bufferOf (bytesOf ("HTTP/1.1 200 OK\r\nTransfer-Encoding: chunked\r\n\r\n" ++
      "3\r\n\r\n1\r\n1b\r\n15zzzz\r\n5zzzz\r\n5zzzz\r\n5zzzz\r\n0\r\n\r\n\r\n")))).map
        (fun x => (chars x.1.toStringView, x.2.map HttpResponse.body)) =
      .ok (bytesOf "\r\n", .ok (bytesOf "\r\n115zzzz\r\n5zzzz\r\n5zzzz\r\n5zzzz")) := by
  decide +kernel

/-- One chunk. -/
def sample : ChunkedResponse where
  status := .ok
  headers :=
    { headers := [(bytesOf "Transfer-Encoding", bytesOf "chunked")]
      distinct := by decide
      name_token := by decide
      name_free := by decide
      value_free := by decide }
  chunked := by decide
  chunks :=
    [{ size := bytesOf "3", data := bytesOf "abc", data_ne := by decide, size_eq := by decide }]

theorem decodes_chunked_sample :
    ((∀ c ∈ sample.chunks, PairFree cr lf c.data) → ¬ PairFree cr lf [cr, lf] →
        sample.Decodes (bufferOf (sample.bytes ++ [cr, lf])) [cr, lf]) ∧
      (sample.Decodes (bufferOf (sample.bytes ++ [cr, lf])) [cr, lf] → ¬ PairFree cr lf [cr, lf]) :=
  sample.decodes_chunked (holds_bufferOf (by decide +kernel))

/-- With nothing behind it, a complete response is waited for. -/
theorem not_decodes_at_end :
    ¬ ∀ (response : ChunkedResponse) (buf : Buffer) (rest : List UInt8),
      Holds buf (response.bytes ++ rest) → response.Decodes buf rest := by
  intro h
  have hbuf : Holds (bufferOf (sample.bytes ++ [])) (sample.bytes ++ []) :=
    holds_bufferOf (by decide +kernel)
  obtain ⟨buf', r, hbuild, -, -⟩ := h sample _ [] hbuf
  have hwaits : (buildFromBuffer (bufferOf (sample.bytes ++ []))).map Prod.snd =
      .ok (.error .WaitForData) := by
    decide +kernel
  rw [hbuild] at hwaits
  cases hwaits

end ChunkedResponse

end Hulatang
