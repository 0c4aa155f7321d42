import Hulatang.Base.Placement
import Hulatang.Http.ContentLength

/-!
# `HttpClient::onMessage`

A response arrives in pieces. With every piece the client appends to `readBuffer_` and reads the whole of
it from the beginning. As long as the header block is there, the builder waits for the body; but a header
block that is cut short makes it read beyond the end. So a response is delivered independently of the
cuts exactly when no cut is in front of the end of its header block.
-/

namespace Hulatang

/-- `HttpClient`, with the responses that `requestCallback_` has been called with. -/
structure HttpClient where
  readBuffer : Buffer
  responses : List HttpResponse

namespace HttpClient

/-- `onConnection`, of a connection that is established. -/
def onConnection (c : HttpClient) : HttpClient := { c with readBuffer := c.readBuffer.retrieveAll }

/-- `onMessage`, and the value of its error condition. -/
def onMessage (c : HttpClient) (buf : Buf) : Except HttpFault (HttpClient × ErrorCode) := do
  let readBuffer ← HttpResponseBuilder.access (c.readBuffer.append buf.buf)
  let (readBuffer, result) ← buildFromBuffer readBuffer
  match result with
  | .error code => return ({ c with readBuffer := readBuffer }, code)
  | .ok response =>
    return ({ readBuffer := readBuffer, responses := c.responses ++ [response] }, .NoError)

/-- The pieces arrive one after the other. -/
def receive (c : HttpClient) : List Buf → Except HttpFault (HttpClient × List ErrorCode)
  | [] => .ok (c, [])
  | piece :: pieces => do
    let (c, code) ← c.onMessage piece
    let (c, codes) ← c.receive pieces
    return (c, code :: codes)

/-- The bytes of pieces. -/
def bytesOfPieces (pieces : List Buf) : List UInt8 := pieces.flatMap Buf.buf

theorem bytesOfPieces_append (before after : List Buf) :
    bytesOfPieces (before ++ after) = bytesOfPieces before ++ bytesOfPieces after := List.flatMap_append

/-- The client waits after every piece but the last, with what has been received in its buffer, and then
calls `requestCallback_` once, with what it is called with when the response arrives in one piece. -/
structure Delivers (c : HttpClient) (whole : Buf) (pieces : List Buf) : Prop where
  waits : ∀ before after, pieces = before ++ after → before ≠ [] → after ≠ [] →
    ∃ c', c.receive before = .ok (c', List.replicate before.length .WaitForData) ∧
      c'.readBuffer.toStringView = (bytesOfPieces before).map some ∧ c'.responses = c.responses
  delivers : ∃ c' c₁ response,
    c.receive pieces = .ok (c', List.replicate (pieces.length - 1) .WaitForData ++ [.NoError]) ∧
      c'.responses = c.responses ++ [response] ∧
      c.onMessage whole = .ok (c₁, .NoError) ∧ c₁.responses = c.responses ++ [response]

/-- The buffer of a client that has received the bytes of a response that is not complete. -/
structure Received (b : Buffer) (bytes : List UInt8) : Prop where
  holds : Holds b bytes
  reader : b.readerIndex = Buffer.kCheapPrepend

theorem received_retrieveAll {b : Buffer} (hwf : b.WellFormed) : Received b.retrieveAll [] :=
  ⟨⟨hwf.retrieveAll.1, hwf.retrieveAll.2⟩, rfl⟩

theorem Received.writer {b : Buffer} {bytes : List UInt8} (h : Received b bytes) :
    b.writerIndex = Buffer.kCheapPrepend + bytes.length := by
  have hreadable := h.holds.wellFormed.readableBytes_eq
  have hle := h.holds.wellFormed.reader_le
  rw [h.holds.readableBytes_eq, h.reader] at hreadable
  rw [h.reader] at hle
  omega

theorem Received.fits {b : Buffer} {bytes : List UInt8} (h : Received b bytes) :
    Buffer.kCheapPrepend + bytes.length ≤ maxSize := by
  rw [← h.writer]
  exact h.holds.wellFormed.writer_le.trans h.holds.wellFormed.length_le

/-- An append keeps the bytes where they are, since nothing has been retrieved, or they do not fit. -/
theorem Received.append_or {b : Buffer} {bytes data : List UInt8} (h : Received b bytes)
    (hlen : data.length ≤ maxSize) :
    (∃ b', b.append data = .ok b' ∧ Received b' (bytes ++ data)) ∨
      b.append data = .error .lengthError ∧ maxSize < Buffer.kCheapPrepend + (bytes ++ data).length := by
  have hwf := h.holds.wellFormed
  -- The vector grows or not; when it is compacted the bytes go to where they are already.
  rcases hwf.append hlen with ⟨b', hdone, hwf', hview⟩ | ⟨hfault, hbig⟩
  · refine .inl ⟨b', hdone, ⟨hwf', ?_⟩, ?_⟩
    · rw [hview, h.holds.view, List.map_append]
    · cases hwf.placed_append hlen hdone with
      | room _ hreader _ => exact hreader.trans h.reader
      | grown _ _ hreader _ => exact hreader.trans h.reader
      | compacted _ _ hreader _ _ => exact hreader
  · rw [h.writer] at hbig
    rw [List.length_append]
    exact .inr ⟨hfault, by omega⟩

theorem Received.append {b : Buffer} {bytes : List UInt8} (h : Received b bytes) (piece : Buf)
    (hfits : Buffer.kCheapPrepend + (bytes ++ piece.buf).length ≤ maxSize) :
    ∃ b', b.append piece.buf = .ok b' ∧ Received b' (bytes ++ piece.buf) := by
  rcases h.append_or piece.len_le with hdone | ⟨-, hbig⟩
  · exact hdone
  · omega

/-! ## One piece -/

variable {c : HttpClient} {response : ContentLengthResponse} {bytes tail : List UInt8} {piece : Buf}

/-- Behind the header block, a piece that does not complete the body is kept. -/
theorem onMessage_waits (h : Received c.readBuffer bytes)
    (hfits : Buffer.kCheapPrepend + (bytes ++ piece.buf).length ≤ maxSize)
    (hbytes : bytes ++ piece.buf = response.block ++ tail) (hlen : response.bytes.length < 2^63)
    (hshort : tail.length < response.body.length) :
    ∃ b', c.onMessage piece = .ok ({ c with readBuffer := b' }, .WaitForData) ∧
      Received b' (bytes ++ piece.buf) := by
  obtain ⟨b', happend, hreceived⟩ := h.append piece hfits
  have hholds : Holds b' (response.block ++ tail) := hbytes ▸ hreceived.holds
  refine ⟨b', ?_, hreceived⟩
  unfold onMessage
  rw [happend, HttpResponseBuilder.access_ok, HttpResponseBuilder.ok_bind,
    ContentLengthResponse.buildFromBuffer_waits hholds hlen hshort]
  rfl

/-- A piece that completes the response delivers it. -/
theorem onMessage_delivers (h : Received c.readBuffer bytes)
    (hfits : Buffer.kCheapPrepend + (bytes ++ piece.buf).length ≤ maxSize)
    (hbytes : bytes ++ piece.buf = response.bytes) :
    ∃ b', c.onMessage piece =
      .ok ({ readBuffer := b', responses := c.responses ++ [response.toHttpResponse] }, .NoError) := by
  obtain ⟨b', happend, hreceived⟩ := h.append piece hfits
  have hholds : Holds b' (response.bytes ++ []) := by
    rw [List.append_nil, ← hbytes]
    exact hreceived.holds
  obtain ⟨b'', -, hparse⟩ := ContentLengthResponse.parse_takes hholds
  have hbuild : buildFromBuffer b' = .ok (b'', .ok response.toHttpResponse) := by
    unfold buildFromBuffer
    rw [hparse]
    exact congrArg (fun result => Except.ok (b'', result)) (ContentLengthResponse.result_filled b'')
  refine ⟨b'', ?_⟩
  unfold onMessage
  rw [happend, HttpResponseBuilder.access_ok, HttpResponseBuilder.ok_bind, hbuild]
  rfl

/-- A piece that leaves the header block cut short makes the builder read beyond its end. -/
theorem onMessage_cut (h : Received c.readBuffer bytes)
    (hfits : Buffer.kCheapPrepend + (bytes ++ piece.buf).length ≤ maxSize)
    (hcut : bytes ++ piece.buf <+: response.block)
    (hshort : (bytes ++ piece.buf).length < response.block.length) :
    c.onMessage piece = .error .nullCrlf := by
  obtain ⟨b', happend, hreceived⟩ := h.append piece hfits
  have hne : bytes ++ piece.buf ≠ response.block := by
    intro heq
    rw [heq] at hshort
    exact Nat.lt_irrefl _ hshort
  unfold onMessage buildFromBuffer
  rw [happend, HttpResponseBuilder.access_ok, HttpResponseBuilder.ok_bind,
    parse_of_cut hreceived.holds hcut hne]
  rfl

/-! ## All pieces -/

/-- The last piece comes last. -/
theorem receive_concat (c : HttpClient) (pieces : List Buf) (piece : Buf) :
    c.receive (pieces ++ [piece]) =
      (do
        let (c, codes) ← c.receive pieces
        let (c, code) ← c.onMessage piece
        return (c, codes ++ [code])) := by
  induction pieces generalizing c with
  | nil =>
    show (c.onMessage piece >>= _) = (c.onMessage piece >>= _)
    cases c.onMessage piece with
    | error fault => rfl
    | ok x => rfl
  | cons p pieces ih =>
    show (c.onMessage p >>= _) = ((c.onMessage p >>= _) >>= _)
    cases c.onMessage p with
    | error fault => rfl
    | ok x =>
      obtain ⟨c₁, code₁⟩ := x
      show (c₁.receive (pieces ++ [piece]) >>= _) = ((c₁.receive pieces >>= _) >>= _)
      rw [ih c₁]
      cases c₁.receive pieces with
      | error fault => rfl
      | ok y =>
        obtain ⟨c₂, codes⟩ := y
        show ((c₂.onMessage piece >>= _) >>= _) = (c₂.onMessage piece >>= _)
        cases c₂.onMessage piece with
        | error fault => rfl
        | ok z => rfl

/-- Pieces behind the header block that do not complete the body are kept. -/
theorem receive_waits {pieces : List Buf} {rest : List UInt8} (h : Received c.readBuffer bytes)
    (hfits : Buffer.kCheapPrepend + response.bytes.length ≤ maxSize)
    (hbytes : bytes ++ bytesOfPieces pieces ++ rest = response.bytes) (hrest : rest ≠ [])
    (hblock : ∀ piece ∈ pieces.head?, response.block.length ≤ (bytes ++ piece.buf).length) :
    ∃ b', c.receive pieces =
        .ok ({ c with readBuffer := b' }, List.replicate pieces.length .WaitForData) ∧
      Received b' (bytes ++ bytesOfPieces pieces) := by
  induction pieces generalizing c bytes with
  | nil =>
    refine ⟨c.readBuffer, rfl, ?_⟩
    show Received c.readBuffer (bytes ++ [])
    rw [List.append_nil]
    exact h
  | cons piece pieces ih =>
    have hjoin : bytes ++ piece.buf ++ bytesOfPieces pieces ++ rest = response.bytes := by
      rw [← hbytes]
      simp only [bytesOfPieces, List.flatMap_cons, List.append_assoc]
    have hpart : bytes ++ piece.buf <+: response.bytes := by
      refine ⟨bytesOfPieces pieces ++ rest, ?_⟩
      rw [← hjoin, List.append_assoc _ _ rest]
    have hlong : response.block.length ≤ (bytes ++ piece.buf).length := hblock piece rfl
    have hlength := congrArg List.length hjoin
    have hresponse : response.bytes.length = response.block.length + response.body.length :=
      List.length_append
    have hrestpos := List.length_pos_iff.mpr hrest
    rw [List.length_append, List.length_append] at hlength
    -- What has been received is the header block and the beginning of the body.
    obtain ⟨tail, htail⟩ := List.prefix_of_prefix_length_le (List.prefix_append _ _) hpart hlong
    have htaillength := congrArg List.length htail
    rw [List.length_append] at htaillength
    have hlt : response.bytes.length < 2^63 := by
      unfold maxSize at hfits
      omega
    obtain ⟨b₁, hdone, hreceived⟩ := onMessage_waits h (by omega) htail.symm hlt (by omega)
    have hnext : ∀ p ∈ pieces.head?, response.block.length ≤ (bytes ++ piece.buf ++ p.buf).length := by
      intro p _
      rw [List.length_append]
      omega
    obtain ⟨b₂, hrun, hlast⟩ := ih (c := { c with readBuffer := b₁ }) hreceived hjoin hnext
    refine ⟨b₂, ?_, ?_⟩
    · unfold receive
      rw [hdone]
      show (receive { c with readBuffer := b₁ } pieces >>= _) = _
      rw [hrun]
      rfl
    · have hsame : bytes ++ bytesOfPieces (piece :: pieces) =
          bytes ++ piece.buf ++ bytesOfPieces pieces := by
        simp only [bytesOfPieces, List.flatMap_cons, List.append_assoc]
      rw [hsame]
      exact hlast

theorem bytesOfPieces_ne_nil {pieces : List Buf} (h : pieces ≠ [])
    (hne : ∀ piece ∈ pieces, piece.buf ≠ []) : bytesOfPieces pieces ≠ [] := by
  obtain ⟨piece, pieces, rfl⟩ := List.exists_cons_of_ne_nil h
  exact List.append_ne_nil_of_left_ne_nil (hne piece List.mem_cons_self) _

/-- A first piece that cuts the header block short stops the client. -/
theorem receive_cut {pieces : List Buf} (h : Received c.readBuffer [])
    (hfits : Buffer.kCheapPrepend + response.bytes.length ≤ maxSize)
    (hpieces : bytesOfPieces pieces = response.bytes) (hpiece : piece ∈ pieces.head?)
    (hless : piece.buf.length < response.block.length) : c.receive pieces = .error .nullCrlf := by
  obtain ⟨rest, rfl⟩ := List.head?_eq_some_iff.mp hpiece
  have hpart : piece.buf <+: response.bytes := ⟨bytesOfPieces rest, hpieces⟩
  have hcut : piece.buf <+: response.block :=
    List.prefix_of_prefix_length_le hpart (List.prefix_append _ _) (Nat.le_of_lt hless)
  have hpiecefits : Buffer.kCheapPrepend + ([] ++ piece.buf).length ≤ maxSize := by
    have hle := hpart.length_le
    rw [List.nil_append]
    omega
  unfold receive
  rw [onMessage_cut h hpiecefits hcut hless]
  rfl

/-- Behind pieces of which the first has the header block, the client waits for the others. -/
theorem receive_before {before after : List Buf} (h : Received c.readBuffer [])
    (hfits : Buffer.kCheapPrepend + response.bytes.length ≤ maxSize)
    (hpieces : bytesOfPieces (before ++ after) = response.bytes) (hafter : bytesOfPieces after ≠ [])
    (hblock : ∀ p ∈ (before ++ after).head?, response.block.length ≤ p.buf.length) :
    ∃ b', c.receive before =
        .ok ({ c with readBuffer := b' }, List.replicate before.length .WaitForData) ∧
      Received b' (bytesOfPieces before) := by
  have hjoin : [] ++ bytesOfPieces before ++ bytesOfPieces after = response.bytes := by
    rw [List.nil_append, ← hpieces, bytesOfPieces_append]
  have hfirst : ∀ p ∈ before.head?, response.block.length ≤ ([] ++ p.buf).length := by
    intro p hp
    refine hblock p ?_
    rw [List.head?_append, hp]
    rfl
  exact receive_waits h hfits hjoin hafter hfirst

/-- The last of them delivers the response. -/
theorem receive_delivers {before : List Buf} (h : Received c.readBuffer [])
    (hfits : Buffer.kCheapPrepend + response.bytes.length ≤ maxSize)
    (hpieces : bytesOfPieces (before ++ [piece]) = response.bytes) (hne : piece.buf ≠ [])
    (hblock : ∀ p ∈ (before ++ [piece]).head?, response.block.length ≤ p.buf.length) :
    ∃ b', c.receive (before ++ [piece]) =
      .ok ({ readBuffer := b', responses := c.responses ++ [response.toHttpResponse] },
        List.replicate before.length .WaitForData ++ [.NoError]) := by
  have hlast : bytesOfPieces [piece] = piece.buf := List.append_nil _
  obtain ⟨b', hrun, hreceived⟩ := receive_before h hfits hpieces (by rw [hlast]; exact hne) hblock
  have hjoin : bytesOfPieces before ++ piece.buf = response.bytes := by
    rw [← hpieces, bytesOfPieces_append, hlast]
  obtain ⟨b₂, hdone⟩ := onMessage_delivers (c := { c with readBuffer := b' }) hreceived
    (by rw [hjoin]; exact hfits) hjoin
  refine ⟨b₂, ?_⟩
  rw [receive_concat, hrun]
  show (onMessage { c with readBuffer := b' } piece >>= _) = _
  rw [hdone]
  rfl

/-- A well-formed response with a `Content-Length` is delivered independently of the cuts exactly when its
header block is in the first piece. -/
theorem delivers_iff (response : ContentLengthResponse) (c : HttpClient) {whole : Buf} {pieces : List Buf}
    (hwf : c.readBuffer.WellFormed) (hwhole : whole.buf = response.bytes)
    (hfits : Buffer.kCheapPrepend + response.bytes.length ≤ maxSize)
    (hpieces : bytesOfPieces pieces = response.bytes) (hne : ∀ piece ∈ pieces, piece.buf ≠ []) :
    Delivers c.onConnection whole pieces ↔
      ∀ piece ∈ pieces.head?, response.block.length ≤ piece.buf.length := by
  have hstart : Received c.onConnection.readBuffer [] := received_retrieveAll hwf
  constructor
  · rintro ⟨-, c', c₁, r, hrun, -⟩ piece hpiece
    -- A first piece that ends inside of the block forms a line from a null `crlf`.
    by_contra hshort
    rw [receive_cut hstart hfits hpieces hpiece (Nat.lt_of_not_le hshort)] at hrun
    cases hrun
  · intro hblock
    have hnonempty : pieces ≠ [] := by
      rintro rfl
      have hnil : response.block = [] := (List.append_eq_nil_iff.mp hpieces.symm).1
      -- The block has at least a status line.
      have hlines := length_le_length_unlines cr lf (blockLines response.status response.headers)
      rw [← ContentLengthResponse.block, hnil] at hlines
      exact absurd hlines (Nat.not_succ_le_zero _)
    refine ⟨fun before after hsplit _ hafter => ?_, ?_⟩
    · subst hsplit
      have hrest := bytesOfPieces_ne_nil hafter fun p hp => hne p (List.mem_append_right _ hp)
      obtain ⟨b', hrun, hreceived⟩ := receive_before hstart hfits hpieces hrest hblock
      exact ⟨_, hrun, hreceived.holds.view, rfl⟩
    · obtain ⟨before, last, rfl⟩ : ∃ before last, pieces = before ++ [last] :=
        ⟨_, _, (List.dropLast_append_getLast hnonempty).symm⟩
      have hlast : last.buf ≠ [] := hne last (List.mem_append_right _ List.mem_cons_self)
      have hwholefits : Buffer.kCheapPrepend + ([] ++ whole.buf).length ≤ maxSize := by
        rw [List.nil_append, hwhole]
        exact hfits
      obtain ⟨b', hrun⟩ := receive_delivers hstart hfits hpieces hlast hblock
      obtain ⟨b₁, hatonce⟩ := onMessage_delivers hstart hwholefits hwhole
      refine ⟨{ readBuffer := b', responses := c.responses ++ [response.toHttpResponse] }, _,
        response.toHttpResponse, ?_, rfl, hatonce, rfl⟩
      rw [hrun, List.length_append]
      rfl

/-- The sample in one piece. -/
def sampleWhole : Buf := ⟨ContentLengthResponse.sample.bytes, by decide +kernel⟩

/-- The sample in two pieces, of which the first has `n` bytes. -/
def samplePieces (n : ℕ) (hn : n ≤ sampleWhole.buf.length) : List Buf :=
  [⟨sampleWhole.buf.take n, by
      have hle := sampleWhole.len_le
      rw [List.length_take]
      omega⟩,
    ⟨sampleWhole.buf.drop n, by
      have hle := sampleWhole.len_le
      rw [List.length_drop]
      omega⟩]

/-- A cut in the body. -/
theorem delivers_iff_sample :
    Delivers (onConnection ⟨.ofSize Buffer.kInitialSize, []⟩) sampleWhole
        (samplePieces (ContentLengthResponse.sample.block.length + 1) (by decide +kernel)) ↔
      ∀ piece ∈ (samplePieces (ContentLengthResponse.sample.block.length + 1) (by decide +kernel)).head?,
        ContentLengthResponse.sample.block.length ≤ piece.buf.length :=
  delivers_iff .sample _ (Buffer.wellFormed_ofSize (by decide)) rfl (by decide +kernel) (by decide +kernel)
    (by decide +kernel)

/-- A cut in the status line: the program reads beyond the first piece. -/
theorem not_delivers_of_cut :
    ¬ ∀ (response : ContentLengthResponse) (c : HttpClient) (whole : Buf) (pieces : List Buf),
      c.readBuffer.WellFormed → whole.buf = response.bytes →
        Buffer.kCheapPrepend + response.bytes.length ≤ maxSize →
          bytesOfPieces pieces = response.bytes → (∀ piece ∈ pieces, piece.buf ≠ []) →
            Delivers c.onConnection whole pieces := by
  intro h
  obtain ⟨-, c', c₁, r, hrun, -⟩ := h .sample ⟨.ofSize Buffer.kInitialSize, []⟩ sampleWhole
    (samplePieces 1 (by decide +kernel)) (Buffer.wellFormed_ofSize (by decide)) rfl (by decide +kernel)
    (by decide +kernel) (by decide +kernel)
  have hfault : (receive (onConnection ⟨.ofSize Buffer.kInitialSize, []⟩)
      (samplePieces 1 (by decide +kernel))).map Prod.snd = .error .nullCrlf := by
    decide +kernel
  rw [hrun] at hfault
  cases hfault

end HttpClient

end Hulatang
