import Hulatang.Http.HttpClient
import Hulatang.Lib.Fallible
import Hulatang.Lib.PacketReader

/-!
# Several responses on a connection

Responses with a `Content-Length` that come one behind the other are a stream of packets, whose heads are the
header blocks, and `HttpClient::onMessage` reads them like a `PacketReader`: every message is appended to what
has been left over, and at most one response is taken. What it fails at is a header block that is cut short
when it is next, and nothing else (`follows_of_pieces`).

It does not look at the buffer again before there is another message. So a response that has arrived with the
end of the one before stays in the buffer, in full, and the client returns all responses exactly when the
messages behind each message are as many as the responses that are not complete by then (`delivers_all_iff`).
-/

namespace Hulatang

namespace Buffer

variable {b b' : Buffer} {n : ℕ}

/-- The writer index only moves when it is reset. -/
theorem writerIndex_retrieve (h : b.retrieve n = .ok b') :
    b'.writerIndex ≤ max b.writerIndex kCheapPrepend := by
  unfold retrieve at h
  split_ifs at h
  · cases h
    exact Nat.le_max_left _ _
  · cases h
    exact Nat.le_max_right _ _

theorem writerIndex_retrieveAsString {str : List NoInit} (h : b.retrieveAsString n = .ok (b', str)) :
    b'.writerIndex ≤ max b.writerIndex kCheapPrepend := by
  unfold retrieveAsString at h
  split_ifs at h
  cases hretrieve : b.retrieve n with
  | error fault =>
    rw [hretrieve] at h
    cases h
  | ok b₁ =>
    rw [hretrieve] at h
    cases h
    exact writerIndex_retrieve hretrieve

end Buffer

namespace HttpResponseBuilder

theorem access_eq_ok {α : Type} {x : Except Fault α} {a : α} (h : access x = .ok a) : x = .ok a := by
  cases x with
  | error fault => cases h
  | ok b => exact congrArg _ (Except.ok.inj h)

theorem writerIndex_contentLength {b b' : HttpResponseBuilder} {len : ℕ} (h : b.contentLength len = .ok b') :
    b'.buf.writerIndex ≤ max b.buf.writerIndex Buffer.kCheapPrepend := by
  unfold contentLength at h
  dsimp only at h
  split_ifs at h
  · cases h
    exact Nat.le_max_left _ _
  · obtain ⟨buf₁, hretrieve, h⟩ := bind_eq_ok h
    obtain ⟨⟨buf₂, body⟩, hstring, h⟩ := bind_eq_ok h
    cases h
    have hfirst := Buffer.writerIndex_retrieve (access_eq_ok hretrieve)
    have hsecond := Buffer.writerIndex_retrieveAsString (access_eq_ok hstring)
    exact hsecond.trans (max_le hfirst (Nat.le_max_right _ _))

end HttpResponseBuilder

namespace ContentLengthResponse

/-- What a reader has to know of a response. -/
def packet (response : ContentLengthResponse) : StreamPacket :=
  ⟨response.block.length, response.bytes.length⟩

/-- Responses, one behind the other. -/
def stream (responses : List ContentLengthResponse) : List UInt8 := responses.flatMap bytes

variable {response : ContentLengthResponse} {buf : Buffer} {rest : List UInt8}

theorem stream_cons (response : ContentLengthResponse) (responses : List ContentLengthResponse) :
    stream (response :: responses) = response.bytes ++ stream responses := List.flatMap_cons

theorem stream_singleton (response : ContentLengthResponse) : stream [response] = response.bytes :=
  List.flatMap_singleton ..

theorem stream_append (before after : List ContentLengthResponse) :
    stream (before ++ after) = stream before ++ stream after := List.flatMap_append

/-- A response at the front of the buffer is returned, and nothing is written behind the others. -/
theorem buildFromBuffer_takes (hbuf : Holds buf (response.bytes ++ rest)) :
    ∃ buf', buildFromBuffer buf = .ok (buf', .ok response.toHttpResponse) ∧ Holds buf' rest ∧
      buf'.writerIndex ≤ max buf.writerIndex Buffer.kCheapPrepend := by
  obtain ⟨buf', hbuf', hparse⟩ := parse_takes hbuf
  have hlength : response.body.length < 2^64 := by
    have hlt := hbuf.length_lt
    unfold bytes at hlt
    simp only [List.length_append] at hlt
    omega
  have hblock : Holds buf (response.block ++ (response.body ++ rest)) := by
    rw [← List.append_assoc]
    exact hbuf
  have hwriter := HttpResponseBuilder.writerIndex_contentLength ((parse_eq hblock hlength).symm.trans hparse)
  refine ⟨buf', ?_, hbuf', hwriter⟩
  unfold buildFromBuffer
  rw [hparse]
  exact congrArg (fun result => Except.ok (buf', result)) (result_filled buf')

end ContentLengthResponse

namespace HttpClient

open ContentLengthResponse (packet stream stream_cons stream_singleton stream_append)

/-! ## One message -/

/-- A buffer with bytes that have not been read, of `total` that have arrived. -/
structure Gathered (b : Buffer) (bytes : List UInt8) (total : ℕ) : Prop where
  holds : Holds b bytes
  writer : b.writerIndex ≤ Buffer.kCheapPrepend + total

theorem Gathered.append {b : Buffer} {bytes : List UInt8} {total : ℕ} (h : Gathered b bytes total)
    (piece : Buf) (hfits : Buffer.kCheapPrepend + (total + piece.buf.length) ≤ maxSize) :
    ∃ b', b.append piece.buf = .ok b' ∧ Gathered b' (bytes ++ piece.buf) (total + piece.buf.length) := by
  have hwriter := h.writer
  rcases h.holds.wellFormed.append piece.len_le with ⟨b', hdone, hwf', hview⟩ | ⟨-, hbig⟩
  · have hholds : Holds b' (bytes ++ piece.buf) := ⟨hwf', by rw [hview, h.holds.view, List.map_append]⟩
    have hreader : b'.readerIndex ≤ b.readerIndex := by
      cases h.holds.wellFormed.placed_append piece.len_le hdone with
      | room _ hreader _ => exact Nat.le_of_eq hreader
      | grown _ _ hreader _ => exact Nat.le_of_eq hreader
      | compacted _ _ hreader hmoved _ => exact hreader ▸ Nat.le_of_lt hmoved
    have hbefore := h.holds.wellFormed.readableBytes_eq
    have hafter := hwf'.readableBytes_eq
    rw [h.holds.readableBytes_eq] at hbefore
    rw [hholds.readableBytes_eq, List.length_append] at hafter
    have hle := h.holds.wellFormed.reader_le
    exact ⟨b', hdone, hholds, by omega⟩
  · omega

variable {c : HttpClient} {responses : List HttpResponse} {done pending : List ContentLengthResponse}
  {unread : List UInt8} {total : ℕ} {piece : Buf} {pieces : List Buf}

/-- A client that has returned the responses `done` and has `unread` of those that are `pending`. -/
structure Reads (responses : List HttpResponse) (done pending : List ContentLengthResponse)
    (unread : List UInt8) (total : ℕ) (c : HttpClient) : Prop where
  gathered : Gathered c.readBuffer unread total
  responses : c.responses = responses ++ done.map ContentLengthResponse.toHttpResponse
  arrived : (stream done ++ unread).length = total

theorem onMessage_of_error {b b' : Buffer} {code : ErrorCode}
    (happend : c.readBuffer.append piece.buf = .ok b)
    (hbuild : buildFromBuffer b = .ok (b', .error code)) :
    c.onMessage piece = .ok ({ c with readBuffer := b' }, code) := by
  unfold onMessage
  rw [happend, HttpResponseBuilder.access_ok, HttpResponseBuilder.ok_bind, hbuild]
  rfl

theorem onMessage_of_ok {b b' : Buffer} {response : HttpResponse}
    (happend : c.readBuffer.append piece.buf = .ok b)
    (hbuild : buildFromBuffer b = .ok (b', .ok response)) :
    c.onMessage piece = .ok (⟨b', c.responses ++ [response]⟩, .NoError) := by
  unfold onMessage
  rw [happend, HttpResponseBuilder.access_ok, HttpResponseBuilder.ok_bind, hbuild]
  rfl

/-- The client after a message. -/
inductive Handles (responses : List HttpResponse) (done pending : List ContentLengthResponse)
    (unread : List UInt8) (total : ℕ) (c : HttpClient) (piece : Buf) : Prop
  | cut (hstep : PacketReader.step ⟨pending.map packet, unread.length⟩ piece.buf.length = none)
      (hfault : c.onMessage piece = .error .nullCrlf)
  | goesOn (c' : HttpClient) (code : ErrorCode) (done' pending' : List ContentLengthResponse)
      (unread' : List UInt8)
      (hstep : PacketReader.step ⟨pending.map packet, unread.length⟩ piece.buf.length =
        some ⟨pending'.map packet, unread'.length⟩)
      (hdone : c.onMessage piece = .ok (c', code))
      (hreads : Reads responses done' pending' unread' (total + piece.buf.length) c')
      (hall : done' ++ pending' = done ++ pending)
      (hbytes : stream done' ++ unread' = stream done ++ unread ++ piece.buf)

/-- A message of the stream is handled as a reader of packets does it. -/
theorem Reads.onMessage (h : Reads responses done pending unread total c) (hne : piece.buf ≠ [])
    (hstream : unread ++ piece.buf <+: stream pending)
    (hfits : Buffer.kCheapPrepend + (stream (done ++ pending)).length ≤ maxSize) :
    Handles responses done pending unread total c piece := by
  have hlength : (unread ++ piece.buf).length = unread.length + piece.buf.length := List.length_append
  have harrived := h.arrived
  rw [stream_append, List.length_append] at hfits
  rw [List.length_append] at harrived
  have hle := hstream.length_le
  rw [hlength] at hle
  obtain ⟨b, happend, hgathered⟩ := h.gathered.append piece (by omega)
  cases pending with
  | nil => exact absurd (List.append_eq_nil_iff.mp (List.prefix_nil.mp hstream)).2 hne
  | cons r rest =>
    rw [stream_cons] at hstream hfits
    have hbytes : r.bytes.length = r.block.length + r.body.length := List.length_append
    have harrived' : (stream done ++ (unread ++ piece.buf)).length = total + piece.buf.length := by
      rw [← List.append_assoc, List.length_append, h.arrived]
    by_cases hhead : unread.length + piece.buf.length < r.block.length
    · -- The header block is not there in full: the next CRLF is searched for, and there is none.
      refine .cut (if_pos hhead) ?_
      have hcut : unread ++ piece.buf <+: r.block := by
        refine List.prefix_of_prefix_length_le hstream ?_ (hlength ▸ Nat.le_of_lt hhead)
        exact (List.prefix_append r.block r.body).trans (List.prefix_append _ _)
      have hshort : unread ++ piece.buf ≠ r.block := fun heq => by
        rw [← hlength, heq] at hhead
        exact Nat.lt_irrefl _ hhead
      unfold HttpClient.onMessage buildFromBuffer
      rw [happend, HttpResponseBuilder.access_ok, HttpResponseBuilder.ok_bind,
        parse_of_cut hgathered.holds hcut hshort]
      rfl
    · by_cases hsize : unread.length + piece.buf.length < r.bytes.length
      · -- The body is not: everything stays.
        obtain ⟨tail, htail⟩ : r.block <+: unread ++ piece.buf := by
          refine List.prefix_of_prefix_length_le ?_ hstream (hlength ▸ Nat.le_of_not_lt hhead)
          exact (List.prefix_append r.block r.body).trans (List.prefix_append _ _)
        have htaillength := congrArg List.length htail
        rw [List.length_append, hlength] at htaillength
        have hwhole : r.bytes.length < 2^63 := by
          rw [List.length_append] at hfits
          unfold maxSize at hfits
          omega
        have hbuild : buildFromBuffer b = .ok (b, .error .WaitForData) :=
          ContentLengthResponse.buildFromBuffer_waits (htail ▸ hgathered.holds) hwhole (by omega)
        refine .goesOn { c with readBuffer := b } .WaitForData done (r :: rest) (unread ++ piece.buf) ?_
          (onMessage_of_error happend hbuild) ⟨hgathered, h.responses, harrived'⟩ rfl
          (List.append_assoc ..).symm
        rw [hlength]
        exact PacketReader.step_eq_some_iff.mpr ⟨Nat.le_of_not_lt hhead, .inl ⟨hsize, rfl⟩⟩
      · obtain ⟨more, hmore⟩ : r.bytes <+: unread ++ piece.buf :=
          List.prefix_of_prefix_length_le (List.prefix_append _ _) hstream
            (hlength ▸ Nat.le_of_not_lt hsize)
        have hholdsMore : Holds b (r.bytes ++ more) := hmore ▸ hgathered.holds
        obtain ⟨b', hbuild, hholds, hwriter⟩ := ContentLengthResponse.buildFromBuffer_takes hholdsMore
        have hmorelength := congrArg List.length hmore
        rw [List.length_append, hlength] at hmorelength
        have hdone : stream (done ++ [r]) ++ more = stream done ++ unread ++ piece.buf := by
          rw [stream_append, stream_singleton, List.append_assoc, hmore, ← List.append_assoc]
        refine .goesOn ⟨b', c.responses ++ [r.toHttpResponse]⟩ .NoError (done ++ [r]) rest more ?_
          (onMessage_of_ok happend hbuild) ⟨⟨hholds, ?_⟩, ?_, ?_⟩ (List.append_assoc ..) hdone
        · refine PacketReader.step_eq_some_iff.mpr ⟨Nat.le_of_not_lt hhead, .inr ⟨Nat.le_of_not_lt hsize, ?_⟩⟩
          rw [← hmorelength]
          exact congrArg _ (Nat.add_sub_cancel_left ..).symm
        · exact hwriter.trans (max_le hgathered.writer (Nat.le_add_right _ _))
        · rw [h.responses, List.append_assoc, List.map_append]
          rfl
        · rw [hdone, List.append_assoc]
          exact harrived'

/-! ## All messages -/

/-- The sizes of messages. -/
def lengths (pieces : List Buf) : List ℕ := pieces.map fun piece => piece.buf.length

/-- What is left of the stream comes behind what has been left over. -/
theorem Handles.stream_le {done' pending' : List ContentLengthResponse} {unread' later : List UInt8}
    (hall : done' ++ pending' = done ++ pending)
    (hbytes : stream done' ++ unread' = stream done ++ unread ++ piece.buf)
    (hstream : unread ++ (piece.buf ++ later) <+: stream pending) : unread' ++ later <+: stream pending' := by
  have hwhole : stream done ++ (unread ++ (piece.buf ++ later)) <+: stream (done ++ pending) := by
    rw [stream_append]
    exact (List.prefix_append_right_inj _).mpr hstream
  rw [← List.append_assoc, ← List.append_assoc, ← hbytes, List.append_assoc, ← hall, stream_append] at hwhole
  exact (List.prefix_append_right_inj _).mp hwhole

/-- What becomes of a client that reads messages of the stream. -/
theorem Reads.receive (h : Reads responses done pending unread total c)
    (hne : ∀ piece ∈ pieces, piece.buf ≠ [])
    (hstream : unread ++ bytesOfPieces pieces <+: stream pending)
    (hfits : Buffer.kCheapPrepend + (stream (done ++ pending)).length ≤ maxSize) :
    Machine.run PacketReader.step ⟨pending.map packet, unread.length⟩ (lengths pieces) = none ∧
        c.receive pieces = .error .nullCrlf ∨
      ∃ c' codes done' pending' unread' total',
        Machine.run PacketReader.step ⟨pending.map packet, unread.length⟩ (lengths pieces) =
            some ⟨pending'.map packet, unread'.length⟩ ∧
          c.receive pieces = .ok (c', codes) ∧ Reads responses done' pending' unread' total' c' ∧
          done' ++ pending' = done ++ pending ∧
          stream done' ++ unread' = stream done ++ unread ++ bytesOfPieces pieces := by
  induction pieces generalizing c done pending unread total with
  | nil => exact .inr ⟨c, [], done, pending, unread, total, rfl, rfl, h, rfl, (List.append_nil _).symm⟩
  | cons piece pieces ih =>
    obtain ⟨hpiece, hne⟩ := List.forall_mem_cons.mp hne
    have hbytes : bytesOfPieces (piece :: pieces) = piece.buf ++ bytesOfPieces pieces := List.flatMap_cons
    rw [hbytes] at hstream
    have hfirst : unread ++ piece.buf <+: stream pending := by
      rw [← List.append_assoc] at hstream
      exact (List.prefix_append _ _).trans hstream
    have hrun : ∀ s : PacketReader, Machine.run PacketReader.step s (lengths (piece :: pieces)) =
        (PacketReader.step s piece.buf.length).bind fun s =>
          Machine.run PacketReader.step s (lengths pieces) :=
      fun s => Machine.run_cons s _ _
    rw [hrun]
    unfold HttpClient.receive
    -- The first piece is handled, and the others from the state that it leaves.
    cases h.onMessage hpiece hfirst hfits with
    | cut hstep hfault =>
      rw [hstep, hfault]
      exact .inl ⟨rfl, rfl⟩
    | goesOn c₁ code done₁ pending₁ unread₁ hstep hdone hreads hall hmore =>
      rw [hstep, hdone]
      show Machine.run _ _ _ = _ ∧ (c₁.receive pieces >>= _) = _ ∨
        ∃ c' codes done' pending' unread' total', Machine.run _ _ _ = _ ∧ (c₁.receive pieces >>= _) = _ ∧ _
      rcases ih hreads hne (Handles.stream_le hall hmore hstream) (hall ▸ hfits) with
        ⟨hnone, hfault⟩ | ⟨c', codes, done', pending', unread', total', hsome, hlater, hreads', hall', hmore'⟩
      · rw [hfault]
        exact .inl ⟨hnone, rfl⟩
      · rw [hlater]
        refine .inr ⟨c', code :: codes, done', pending', unread', total', hsome, rfl, hreads',
          hall'.trans hall, ?_⟩
        rw [hmore', hmore, hbytes, List.append_assoc _ _ (bytesOfPieces pieces)]

/-- A client reads messages as a `PacketReader` reads pieces: it fails where that fails, and otherwise it has
returned the responses that have been taken, and the rest of what has arrived is in its buffer. -/
structure Follows (c : HttpClient) (rs : List ContentLengthResponse) (pieces : List Buf) : Prop where
  cut : Machine.run PacketReader.step ⟨rs.map packet, 0⟩ (lengths pieces) = none →
    c.receive pieces = .error .nullCrlf
  goesOn : ∀ t, Machine.run PacketReader.step ⟨rs.map packet, 0⟩ (lengths pieces) = some t →
    ∃ c' codes done pending unread, c.receive pieces = .ok (c', codes) ∧ rs = done ++ pending ∧
      t = ⟨pending.map packet, unread.length⟩ ∧
      c'.responses = c.responses ++ done.map ContentLengthResponse.toHttpResponse ∧
      c'.readBuffer.toStringView = unread.map some ∧ stream done ++ unread = bytesOfPieces pieces

/-- Nothing has been read. -/
theorem reads_onConnection (hwf : c.readBuffer.WellFormed) :
    Reads c.responses [] pending [] 0 c.onConnection := by
  refine ⟨⟨⟨hwf.retrieveAll.1, hwf.retrieveAll.2⟩, Nat.le_refl _⟩, ?_, rfl⟩
  exact (List.append_nil _).symm

/-- Over any messages that bring any part of a stream of responses, from the beginning. -/
theorem follows_of_pieces (c : HttpClient) (rs : List ContentLengthResponse) (pieces : List Buf)
    (hwf : c.readBuffer.WellFormed) (hne : ∀ piece ∈ pieces, piece.buf ≠ [])
    (hstream : bytesOfPieces pieces <+: stream rs)
    (hfits : Buffer.kCheapPrepend + (stream rs).length ≤ maxSize) : Follows c.onConnection rs pieces := by
  rcases (reads_onConnection hwf).receive hne hstream hfits with
    ⟨hnone, hfault⟩ | ⟨c', codes, done, pending, unread, total, hsome, hdone, hreads, hall, hbytes⟩
  · refine ⟨fun _ => hfault, fun t ht => ?_⟩
    exact absurd (hnone.symm.trans ht) (Option.some_ne_none t).symm
  · refine ⟨fun hnone => absurd (hsome.symm.trans hnone) (Option.some_ne_none _), fun t ht => ?_⟩
    obtain rfl := Option.some.inj (hsome.symm.trans ht)
    exact ⟨c', codes, done, pending, unread, hdone, hall.symm, rfl, hreads.responses,
      hreads.gathered.holds.view, hbytes⟩

/-- Once the stream has arrived, all responses have been returned exactly when no message has cut the next
header block short, and there have been enough messages. -/
theorem delivers_all_iff (c : HttpClient) (rs : List ContentLengthResponse) (pieces : List Buf)
    (hwf : c.readBuffer.WellFormed) (hne : ∀ piece ∈ pieces, piece.buf ≠ [])
    (hstream : bytesOfPieces pieces = stream rs)
    (hfits : Buffer.kCheapPrepend + (stream rs).length ≤ maxSize) :
    (∃ c' codes, c.onConnection.receive pieces = .ok (c', codes) ∧
        c'.responses = c.responses ++ rs.map ContentLengthResponse.toHttpResponse) ↔
      (Machine.run PacketReader.step ⟨rs.map packet, 0⟩ (lengths pieces)).isSome = true ∧
        PacketReader.Enough (rs.map packet) 0 (lengths pieces) := by
  have hfollows := follows_of_pieces c rs pieces hwf hne (hstream ▸ List.prefix_rfl) hfits
  cases hrun : Machine.run PacketReader.step ⟨rs.map packet, 0⟩ (lengths pieces) with
  | none =>
    refine iff_of_false ?_ fun h => Bool.noConfusion h.1
    rintro ⟨c', codes, hreceive, -⟩
    rw [hfollows.cut hrun] at hreceive
    cases hreceive
  | some t =>
    obtain ⟨c', codes, done, pending, unread, hreceive, rfl, rfl, hresponses, -, -⟩ := hfollows.goesOn t hrun
    have hemptied := PacketReader.run_emptied_iff hrun
    constructor
    · rintro ⟨c₁, codes₁, hreceive₁, hall⟩
      rw [hreceive] at hreceive₁
      cases hreceive₁
      refine ⟨rfl, hemptied.mp (List.map_eq_nil_iff.mpr ?_)⟩
      -- Nothing is pending, by the number of responses.
      have hlength := congrArg List.length (List.append_cancel_left (hresponses.symm.trans hall))
      rw [List.length_map, List.length_map, List.length_append] at hlength
      exact List.eq_nil_of_length_eq_zero (by omega)
    · rintro ⟨-, henough⟩
      have hpending : pending = [] := List.map_eq_nil_iff.mp (hemptied.mpr henough)
      refine ⟨c', codes, hreceive, ?_⟩
      rw [hresponses, hpending, List.append_nil]
      rfl

/-- Two of the samples. -/
def twoSamples : List ContentLengthResponse := [.sample, .sample]

/-- The two samples in three messages: the second begins in the first message, and its body is cut. -/
def threeMessages : List Buf :=
  [⟨(stream twoSamples).take 60, by decide +kernel⟩,
    ⟨((stream twoSamples).drop 60).take 45, by decide +kernel⟩,
    ⟨(stream twoSamples).drop 105, by decide +kernel⟩]

theorem follows_three_messages :
    Follows (onConnection ⟨.ofSize Buffer.kInitialSize, []⟩) twoSamples threeMessages :=
  follows_of_pieces _ _ _ (Buffer.wellFormed_ofSize (by decide)) (by decide +kernel) (by decide +kernel)
    (by decide +kernel)

theorem delivers_all_three_messages :
    (∃ c' codes, (onConnection ⟨.ofSize Buffer.kInitialSize, []⟩).receive threeMessages = .ok (c', codes) ∧
        c'.responses = [] ++ twoSamples.map ContentLengthResponse.toHttpResponse) ↔
      (Machine.run PacketReader.step ⟨twoSamples.map packet, 0⟩ (lengths threeMessages)).isSome = true ∧
        PacketReader.Enough (twoSamples.map packet) 0 (lengths threeMessages) :=
  delivers_all_iff ⟨.ofSize Buffer.kInitialSize, []⟩ twoSamples threeMessages
    (Buffer.wellFormed_ofSize (by decide)) (by decide +kernel) (by decide +kernel) (by decide +kernel)

/-- Of two that come in one message, the second stays in the buffer. -/
example : Machine.run PacketReader.step ⟨twoSamples.map packet, 0⟩ [106] =
    some ⟨[ContentLengthResponse.sample.packet], 53⟩ := by decide +kernel

end HttpClient

end Hulatang
