import Hulatang.Io.Link

/-!
# The ping-pong programs

A client and a server over one connection, from `examples/pingpong`: the client sends one block when it is
connected, and each of the two callbacks sends back all that it finds and retrieves it. The two directions
of the connection are a ring, in which the block goes round over every interleaving of the two loops and
whatever the kernels make of the reads and the writes (`circulates_of_run`). A `write` is reported only to a
channel that has asked for it, so that some event can always move the block on rests on `send`.

Each callback leaves its buffer empty, so no vector becomes larger than the block, and nothing throws.
-/

namespace Hulatang

/-- `{buf->data(), buf->size()}`, if each byte has been written. -/
def Buf.ofView (view : List NoInit) : Option Buf :=
  match view.mapM id with
  | none => none
  | some buf => if h : buf.length ≤ maxSize then some ⟨buf, h⟩ else none

theorem Buf.ofView_map_some {buf : List UInt8} (h : buf.length ≤ maxSize) :
    Buf.ofView (buf.map some) = some ⟨buf, h⟩ := by
  have hbytes : (buf.map some).mapM id = some buf := by
    rw [List.mapM_map]
    exact (List.mapM_pure (f := id)).trans (congrArg some (List.map_id buf))
  unfold Buf.ofView
  rw [hbytes]
  exact dif_pos h

/-- Both programs. -/
structure PingPong where
  /-- From the client to the server. -/
  up : Link
  /-- From the server to the client. -/
  down : Link
  /-- Whether `Session::onConnection` has been called. -/
  connected : Bool
  bytesRead : BitVec 64
  bytesWritten : BitVec 64
  messagesRead : BitVec 64

namespace PingPong

/-- The connection is established; the client's channel comes with the connector's flags. -/
def initial : PingPong where
  up := .initial true
  down := .initial false
  connected := false
  bytesRead := 0
  bytesWritten := 0
  messagesRead := 0

/-- `conn->send({buf->data(), buf->size()})`, whose exception leaves the callback, and
`buf->retrieveAll()`. -/
def sendBack (source target : Link) : Option (Link × Link) := do
  let buf ← Buf.ofView source.receiver.reactor.readBuf.toStringView
  let target ← target.step (.send buf)
  if target.sender.fault = none then
    let source ← source.step (.retrieve source.receiver.reactor.readBuf.readableBytes)
    return (source, target)
  else return (source, target)

/-- `onMessage` of the server. -/
def serverOnMessage (s : PingPong) : Option PingPong :=
  (sendBack s.up s.down).map fun l => { s with up := l.1, down := l.2 }

/-- `Session::onMessage`. -/
def sessionOnMessage (s : PingPong) : Option PingPong :=
  let size := BitVec.ofNat 64 s.down.receiver.reactor.readBuf.readableBytes
  let s :=
    { s with
      messagesRead := s.messagesRead + 1
      bytesRead := s.bytesRead + size
      bytesWritten := s.bytesWritten + size }
  (sendBack s.down s.up).map fun l => { s with down := l.1, up := l.2 }

/-- `Session::onConnection`, of a connection that is connected. -/
def onConnection (s : PingPong) (message : Buf) : Option PingPong :=
  (s.up.step (.send message)).map fun up => { s with up := up, connected := true }

/-- What the constructor of `Client` makes of `blockSize`. -/
def message (blockSize : ℕ) : List UInt8 := (List.range blockSize).map fun i => UInt8.ofNat (i % 128)

/-- The events of the two loops. -/
inductive Op
  | connected
  | clientOut (result : WriteResult)
  | serverIn (bytes : List UInt8)
  | serverOut (result : WriteResult)
  | clientIn (bytes : List UInt8)
  deriving DecidableEq

/-- One event. An exception that has left `handleRead` calls no callback. -/
def step (message : Buf) (s : PingPong) : Op → Option PingPong
  | .connected => if s.connected then none else s.onConnection message
  | .clientOut result => (s.up.step (.pollOut result)).map fun up => { s with up := up }
  | .serverOut result => (s.down.step (.pollOut result)).map fun down => { s with down := down }
  | .serverIn bytes =>
    (s.up.step (.pollIn bytes)).bind fun up =>
      if up.receiver.reactor.fault = none then { s with up := up }.serverOnMessage
      else some { s with up := up }
  | .clientIn bytes =>
    (s.down.step (.pollIn bytes)).bind fun down =>
      if down.receiver.reactor.fault = none then { s with down := down }.sessionOnMessage
      else some { s with down := down }

/-! ## One direction -/

/-- All that has come into a link: the callback has retrieved it, or it is under way. -/
def carried (l : Link) : List NoInit := l.receiver.retrieved ++ l.underway

/-- A direction between two events: nothing has failed, and the receiver's buffer has been emptied. -/
structure Idle (l : Link) : Prop where
  carries : ∃ p between, Link.Carries l p between
  running : l.sender.fault = none
  receiver : ∃ q, ReadStream.Refines l.receiver q
  reader : l.receiver.reactor.readBuf.readerIndex = Buffer.kCheapPrepend
  writer : l.receiver.reactor.readBuf.writerIndex = Buffer.kCheapPrepend

theorem idle_initial (writing : Bool) : Idle (.initial writing) :=
  ⟨⟨_, _, Link.carries_initial writing⟩, rfl, ⟨_, ReadStream.refines_initial⟩, rfl, rfl⟩

variable {l l' source target : Link} {bytes : List UInt8}

theorem Idle.readable (h : Idle l) : l.receiver.reactor.readBuf.toStringView = [] :=
  Buffer.toStringView_of_eq h.reader h.writer

/-- What has come into a link is what its pipe has accepted. -/
theorem carried_eq {p : Pipe UInt8} {between : List UInt8} (h : Link.Carries l p between)
    (hrunning : l.receiver.reactor.fault = none) : carried l = p.accepted.map some :=
  h.delivers.conserved hrunning

theorem Idle.refines (h : Idle l) : ∃ r, Link.Refines l r := by
  obtain ⟨p, between, hcarries⟩ := h.carries
  obtain ⟨q, hq⟩ := h.receiver
  obtain ⟨r, hr, -⟩ := hcarries.refines hq
  exact ⟨r, hr⟩

/-- A buffer in which as little is queued does not have to grow beyond bounds. -/
theorem fits_of_small {b : Buffer} (hb : b.WellFormed) {len : ℕ} (hsmall : b.readableBytes + len < 2^31) :
    b.Fits len := by
  have hreadable := hb.readableBytes_eq
  have hwritable := hb.writableBytes_eq
  have hreader := hb.reader_le
  have hwriter := hb.writer_le
  unfold Buffer.Fits Buffer.kCheapPrepend maxSize
  omega

/-- So little is appended. -/
theorem append_of_small {b : Buffer} (hb : b.WellFormed) {data : List UInt8}
    (hsmall : b.readableBytes + data.length < 2^31) : ∃ b', b.append data = .ok b' := by
  have hlength : (data.map (some : UInt8 → NoInit)).length = data.length := List.length_map ..
  have hmax : data.length ≤ maxSize := by
    unfold maxSize
    omega
  rw [Buffer.append_eq]
  rcases hb.valid.appendView (by rw [hlength]; exact hmax) with ⟨b', happend, -⟩ | ⟨-, hfits⟩
  · exact ⟨b', happend⟩
  · rw [hlength] at hfits
    exact absurd (fits_of_small hb hsmall) hfits

/-- `send` of so little succeeds. -/
theorem Idle.send (h : Idle l) (buf : Buf)
    (hsmall : l.sender.sendBuffer.readableBytes + buf.buf.length < 2^31) :
    ∃ l', l.step (.send buf) = some l' ∧ Idle l' ∧ carried l' = carried l ++ buf.buf.map some ∧
      l'.receiver = l.receiver := by
  obtain ⟨p, between, hcarries⟩ := h.carries
  have hwf := hcarries.sender.wellFormed
  have hs : l.sender.step (.send buf) = some (l.sender.send buf) := by
    unfold SendStream.step
    exact if_pos h.running
  have hstep : l.step (.send buf) = some { l with sender := l.sender.send buf } := by
    show (l.sender.step (.send buf)).map _ = _
    rw [hs]
    rfl
  -- So little is appended without an exception, whether or not the flag is set.
  obtain ⟨b', happend⟩ := append_of_small hwf hsmall
  obtain ⟨-, hview⟩ := hwf.appended buf.len_le happend
  have hsent : (l.sender.send buf).fault = none ∧ (l.sender.send buf).sendBuffer = b' := by
    unfold SendStream.send
    rw [happend]
    dsimp only
    split_ifs <;> exact ⟨h.running, rfl⟩
  refine ⟨_, hstep, ⟨(hcarries.step hstep).1, hsent.1, h.receiver, h.reader, h.writer⟩, ?_, rfl⟩
  unfold carried Link.underway
  dsimp only
  rw [hsent.2, hview]
  simp only [List.append_assoc]

/-- A `write` that does not fail leaves the direction idle. -/
theorem Idle.pollOut (h : Idle l) {result : WriteResult} (hresult : result ≠ .error)
    (hs : l.step (.pollOut result) = some l') :
    Idle l' ∧ carried l' = carried l ∧ l'.receiver = l.receiver := by
  obtain ⟨p, between, hcarries⟩ := h.carries
  obtain ⟨q, hq⟩ := h.receiver
  obtain ⟨sender, hsender, rfl⟩ := Option.map_eq_some_iff.mp hs
  obtain ⟨p', between', haccepted, hcarries'⟩ := hcarries.pollOut hsender
  have hrunning : sender.fault = none := by
    cases hcarries.sender.step hsender with
    | running hrunning _ => exact hrunning
    | tooLong _ hop _ _ => cases hop
    | failed hop _ => exact absurd (SendStream.Op.pollOut.inj hop) hresult
  refine ⟨⟨⟨p', between', hcarries'⟩, hrunning, h.receiver, h.reader, h.writer⟩, ?_, rfl⟩
  rw [carried_eq hcarries' hq.running, carried_eq hcarries hq.running, haccepted]

/-- What `handleRead` leaves to the callback. -/
structure Read (l : Link) (bytes : List UInt8) (l' : Link) : Prop where
  carries : ∃ p between, Link.Carries l' p between
  receiver : ∃ q, ReadStream.Refines l'.receiver q
  view : l'.receiver.reactor.readBuf.toStringView = bytes.map some
  same : carried l' = carried l
  retrieved : l'.receiver.retrieved = l.receiver.retrieved
  reads : l'.receiver.reads = l.receiver.reads + 1
  sender : l'.sender = l.sender

/-- Into an empty buffer so little is read without an exception. -/
theorem Idle.pollIn (h : Idle l) (hsmall : bytes.length < 2^31) (hs : l.step (.pollIn bytes) = some l') :
    Read l bytes l' := by
  obtain ⟨p, between, hcarries⟩ := h.carries
  obtain ⟨q, hq⟩ := h.receiver
  unfold Link.step at hs
  dsimp only at hs
  split_ifs at hs with htake
  obtain ⟨receiver, hreceiver, rfl⟩ := Option.map_eq_some_iff.mp hs
  have hcarries' := hcarries.pollIn htake hreceiver
  obtain ⟨hpos, hle, rfl⟩ := ReadStream.step_read hreceiver
  cases UnixReactor.reads_handleRead hq.wellFormed hq.running hpos hle with
  | received hrunning _ hview _ _ =>
    refine ⟨⟨_, _, hcarries'⟩, hcarries'.receiver hrunning, ?_, ?_, rfl, rfl, rfl⟩
    · show (l.receiver.reactor.handleRead (.read bytes)).readBuf.toStringView = _
      rw [hview, h.readable, List.nil_append]
    · rw [carried_eq hcarries' hrunning, carried_eq hcarries hq.running]
  | tooLong _ hbig =>
    -- The buffer was empty, and even the vector of a full one could hold so little.
    rw [h.writer] at hbig
    unfold maxSize Buffer.kCheapPrepend at hbig
    omega

/-- The callback leaves both directions idle. -/
theorem Read.sendBack (h : Read l bytes source) (hl : Idle l) (htarget : Idle target)
    (hsmall : target.sender.sendBuffer.readableBytes + bytes.length < 2^31) :
    ∃ source' target', PingPong.sendBack source target = some (source', target') ∧
      Idle source' ∧ carried source' = carried l ∧
      source'.receiver.retrieved = l.receiver.retrieved ++ bytes.map some ∧
      source'.receiver.reads = l.receiver.reads + 1 ∧
      Idle target' ∧ carried target' = carried target ++ bytes.map some ∧
      target'.receiver = target.receiver := by
  obtain ⟨p, between, hcarries⟩ := h.carries
  obtain ⟨q, hq⟩ := h.receiver
  have hmax : bytes.length ≤ maxSize := by
    unfold maxSize
    omega
  have hbuf : Buf.ofView source.receiver.reactor.readBuf.toStringView = some ⟨bytes, hmax⟩ := by
    rw [h.view]
    exact Buf.ofView_map_some hmax
  obtain ⟨target', hsend, htarget', hsent, hreceiver⟩ := htarget.send ⟨bytes, hmax⟩ hsmall
  -- All that is readable is retrieved, so the indices are reset.
  have hreceive : source.receiver.step (.retrieve source.receiver.reactor.readBuf.readableBytes) =
      some (source.receiver.retrieve source.receiver.reactor.readBuf.readableBytes) := by
    unfold ReadStream.step
    rw [if_pos hq.running]
    exact if_pos (Nat.le_refl _)
  have hretrieve : source.step (.retrieve source.receiver.reactor.readBuf.readableBytes) =
      some { source with
        receiver := source.receiver.retrieve source.receiver.reactor.readBuf.readableBytes } := by
    show (source.receiver.step _).map _ = _
    rw [hreceive]
    rfl
  have hall : source.receiver.reactor.readBuf.retrieve source.receiver.reactor.readBuf.readableBytes =
      .ok source.receiver.reactor.readBuf.retrieveAll := by
    unfold Buffer.retrieve
    rw [if_pos (Nat.le_refl _), if_neg (Nat.lt_irrefl _)]
  have hdone : source.receiver.retrieve source.receiver.reactor.readBuf.readableBytes =
      { source.receiver with
        reactor := { source.receiver.reactor with readBuf := source.receiver.reactor.readBuf.retrieveAll }
        retrieved := source.receiver.retrieved ++ bytes.map some } := by
    unfold ReadStream.retrieve
    rw [hall]
    dsimp only
    rw [h.view, ← hq.wellFormed.length_toStringView, h.view, List.take_length]
  have hq' := hq.retrieve (Nat.le_refl _)
  have hcarries' := (hcarries.retrieve hreceive).1
  rw [hdone] at hretrieve hq' hcarries'
  refine ⟨_, target', ?_, ⟨⟨_, _, hcarries'⟩, ?_, ⟨_, hq'⟩, rfl, rfl⟩, ?_, ?_, h.reads, htarget', hsent,
    hreceiver⟩
  · unfold PingPong.sendBack
    rw [hbuf, Option.bind_eq_bind, Option.bind_some, hsend, Option.bind_eq_bind, Option.bind_some,
      if_pos htarget'.running, hretrieve]
    rfl
  · show source.sender.fault = none
    rw [h.sender]
    exact hl.running
  · rw [carried_eq hcarries' hq'.running, ← h.same, carried_eq hcarries hq.running]
  · show source.receiver.retrieved ++ bytes.map some = _
    rw [h.retrieved]

/-- What is in flight, and what is queued, is under way. -/
theorem Idle.length_pollIn (h : Idle l) (hs : l.step (.pollIn bytes) = some l') :
    bytes ≠ [] ∧ bytes.length + l.sender.sendBuffer.readableBytes ≤ l.underway.length := by
  obtain ⟨p, between, hcarries⟩ := h.carries
  have hview := hcarries.sender.wellFormed.length_toStringView
  unfold Link.step at hs
  dsimp only at hs
  split_ifs at hs with htake
  obtain ⟨receiver, hreceiver, -⟩ := Option.map_eq_some_iff.mp hs
  have hlength := congrArg List.length htake
  rw [List.length_take, List.length_map] at hlength
  refine ⟨(ReadStream.step_read hreceiver).1, ?_⟩
  unfold Link.underway
  rw [List.length_append, List.length_append, hview]
  omega

theorem Idle.length_queued (h : Idle l) : l.sender.sendBuffer.readableBytes ≤ l.underway.length := by
  obtain ⟨p, between, hcarries⟩ := h.carries
  have hview := hcarries.sender.wellFormed.length_toStringView
  unfold Link.underway
  rw [List.length_append, List.length_append, hview]
  omega

/-! ## The ring -/

/-- What the client has begun with. -/
def block (message : Buf) (s : PingPong) : List UInt8 := if s.connected then message.buf else []

/-- The two directions feed each other. -/
structure Ring (message : Buf) (s : PingPong) : Prop where
  up : Idle s.up
  down : Idle s.down
  fedDown : s.up.receiver.retrieved = carried s.down
  fedUp : carried s.up = (block message s).map some ++ s.down.receiver.retrieved
  unconnected : s.connected = false → carried s.up = []
  bytesRead : s.bytesRead = BitVec.ofNat 64 s.down.receiver.retrieved.length
  bytesWritten : s.bytesWritten = s.bytesRead
  messagesRead : s.messagesRead = BitVec.ofNat 64 s.down.receiver.reads

theorem ring_initial (message : Buf) : Ring message initial :=
  ⟨idle_initial true, idle_initial false, rfl, rfl, fun _ => rfl, rfl, rfl, rfl⟩

variable {message : Buf} {s s' : PingPong} {op : Op}

/-- What is under way is as long as the block. -/
theorem Ring.length_underway (h : Ring message s) :
    s.up.underway.length + s.down.underway.length = (block message s).length := by
  have hfedDown := congrArg List.length h.fedDown
  have hfedUp := congrArg List.length h.fedUp
  unfold carried at hfedDown hfedUp
  rw [List.length_append] at hfedDown
  rw [List.length_append, List.length_append, List.length_map] at hfedUp
  omega

theorem length_block_le (message : Buf) (s : PingPong) : (block message s).length ≤ message.buf.length := by
  unfold block
  split_ifs
  · exact Nat.le_refl _
  · exact Nat.zero_le _

theorem Ring.connect (h : Ring message s) (hsmall : message.buf.length < 2^31) (hnot : s.connected = false)
    (hs : s.onConnection message = some s') : Ring message s' := by
  have hlength := h.length_underway
  have hqueued := h.up.length_queued
  have hblock : block message s = [] := by
    unfold block
    rw [hnot]
    rfl
  rw [hblock, List.length_nil] at hlength
  obtain ⟨up, hsend, hup, hsent, hreceiver⟩ := h.up.send message (by omega)
  unfold onConnection at hs
  rw [hsend] at hs
  cases hs
  have hfedUp := h.fedUp
  rw [h.unconnected hnot, hblock] at hfedUp
  have hnothing : s.down.receiver.retrieved = [] := hfedUp.symm
  refine ⟨hup, h.down, ?_, ?_, fun hf => (nomatch hf), h.bytesRead, h.bytesWritten, h.messagesRead⟩
  · show up.receiver.retrieved = _
    rw [hreceiver]
    exact h.fedDown
  · show carried up = message.buf.map some ++ s.down.receiver.retrieved
    rw [hsent, h.unconnected hnot, hnothing, List.nil_append, List.append_nil]

theorem Ring.clientOut (h : Ring message s) {result : WriteResult} (hresult : result ≠ .error)
    {up : Link} (hs : s.up.step (.pollOut result) = some up) : Ring message { s with up := up } := by
  obtain ⟨hup, hsent, hreceiver⟩ := h.up.pollOut hresult hs
  refine ⟨hup, h.down, ?_, ?_, ?_, h.bytesRead, h.bytesWritten, h.messagesRead⟩
  · show up.receiver.retrieved = _
    rw [hreceiver]
    exact h.fedDown
  · show carried up = _
    rw [hsent]
    exact h.fedUp
  · show _ → carried up = []
    rw [hsent]
    exact h.unconnected

theorem Ring.serverOut (h : Ring message s) {result : WriteResult} (hresult : result ≠ .error)
    {down : Link} (hs : s.down.step (.pollOut result) = some down) :
    Ring message { s with down := down } := by
  obtain ⟨hdown, hsent, hreceiver⟩ := h.down.pollOut hresult hs
  refine ⟨h.up, hdown, ?_, ?_, h.unconnected, ?_, h.bytesWritten, ?_⟩
  · show _ = carried down
    rw [hsent]
    exact h.fedDown
  · show _ = _ ++ down.receiver.retrieved
    rw [hreceiver]
    exact h.fedUp
  · show _ = BitVec.ofNat 64 down.receiver.retrieved.length
    rw [hreceiver]
    exact h.bytesRead
  · show _ = BitVec.ofNat 64 down.receiver.reads
    rw [hreceiver]
    exact h.messagesRead

/-- The server's callback moves the bytes from one direction to the other. -/
theorem Ring.serverIn (h : Ring message s) (hsmall : message.buf.length < 2^31) {up : Link}
    (hs : s.up.step (.pollIn bytes) = some up) :
    up.receiver.reactor.fault = none ∧
      ∃ s', { s with up := up }.serverOnMessage = some s' ∧ Ring message s' := by
  have hlength := h.length_underway
  have hblock := length_block_le message s
  obtain ⟨-, hbytes⟩ := h.up.length_pollIn hs
  have hqueued := h.down.length_queued
  -- All that is under way in both directions is no longer than the block.
  have hread := h.up.pollIn (by omega) hs
  obtain ⟨q, hq⟩ := hread.receiver
  obtain ⟨up', down', hback, hup, hsentUp, hretrieved, -, hdown, hsentDown, hreceiver⟩ :=
    hread.sendBack h.up h.down (by omega)
  have hdone : { s with up := up }.serverOnMessage = some { s with up := up', down := down' } := by
    unfold serverOnMessage
    dsimp only
    rw [hback]
    rfl
  refine ⟨hq.running, _, hdone, hup, hdown, ?_, ?_, ?_, ?_, h.bytesWritten, ?_⟩
  · show up'.receiver.retrieved = carried down'
    rw [hretrieved, hsentDown, h.fedDown]
  · show carried up' = _ ++ down'.receiver.retrieved
    rw [hsentUp, hreceiver]
    exact h.fedUp
  · show _ → carried up' = []
    rw [hsentUp]
    exact h.unconnected
  · show _ = BitVec.ofNat 64 down'.receiver.retrieved.length
    rw [hreceiver]
    exact h.bytesRead
  · show _ = BitVec.ofNat 64 down'.receiver.reads
    rw [hreceiver]
    exact h.messagesRead

/-- So does the client's, which counts them. -/
theorem Ring.clientIn (h : Ring message s) (hsmall : message.buf.length < 2^31) {down : Link}
    (hs : s.down.step (.pollIn bytes) = some down) :
    down.receiver.reactor.fault = none ∧
      ∃ s', { s with down := down }.sessionOnMessage = some s' ∧ Ring message s' := by
  have hlength := h.length_underway
  have hblock := length_block_le message s
  obtain ⟨hpos, hbytes⟩ := h.down.length_pollIn hs
  have hqueued := h.up.length_queued
  have hread := h.down.pollIn (by omega) hs
  obtain ⟨q, hq⟩ := hread.receiver
  obtain ⟨down', up', hback, hdown, hsentDown, hretrieved, hreads, hup, hsentUp, hreceiver⟩ :=
    hread.sendBack h.down h.up (by omega)
  have hsize : down.receiver.reactor.readBuf.readableBytes = bytes.length := by
    rw [← hq.wellFormed.length_toStringView, hread.view, List.length_map]
  have hdone : { s with down := down }.sessionOnMessage =
      some { s with
        up := up', down := down'
        messagesRead := s.messagesRead + 1
        bytesRead := s.bytesRead + BitVec.ofNat 64 bytes.length
        bytesWritten := s.bytesWritten + BitVec.ofNat 64 bytes.length } := by
    unfold sessionOnMessage
    dsimp only
    rw [hback, hsize]
    rfl
  have hcount : s.bytesRead + BitVec.ofNat 64 bytes.length =
      BitVec.ofNat 64 down'.receiver.retrieved.length := by
    rw [h.bytesRead, hretrieved, List.length_append, List.length_map, BitVec.ofNat_add]
  refine ⟨hq.running, _, hdone, hup, hdown, ?_, ?_, ?_, hcount, ?_, ?_⟩
  · show up'.receiver.retrieved = carried down'
    rw [hreceiver, hsentDown]
    exact h.fedDown
  · show carried up' = (block message s).map some ++ down'.receiver.retrieved
    rw [hsentUp, h.fedUp, hretrieved, List.append_assoc]
  · intro hnot
    -- Before the client is connected there is nothing to read.
    have hnone : block message s = [] := by
      unfold block
      rw [(hnot : s.connected = false)]
      rfl
    rw [hnone, List.length_nil] at hlength
    have hzero := List.length_pos_iff.mpr hpos
    omega
  · show s.bytesWritten + _ = s.bytesRead + _
    rw [h.bytesWritten]
  · show s.messagesRead + 1 = BitVec.ofNat 64 down'.receiver.reads
    rw [h.messagesRead, hreads, BitVec.ofNat_add]
    rfl

/-- No `write` fails for good. -/
def Op.Writes : Op → Prop
  | .clientOut result | .serverOut result => result ≠ .error
  | .connected | .serverIn _ | .clientIn _ => True

instance : DecidablePred Op.Writes
  | .clientOut result | .serverOut result => inferInstanceAs (Decidable (result ≠ .error))
  | .connected | .serverIn _ | .clientIn _ => isTrue trivial

theorem Ring.step (h : Ring message s) (hsmall : message.buf.length < 2^31) (hop : op.Writes)
    (hs : step message s op = some s') : Ring message s' := by
  cases op with
  | connected =>
    unfold PingPong.step at hs
    dsimp only at hs
    split_ifs at hs with hnot
    exact h.connect hsmall (Bool.eq_false_iff.mpr hnot) hs
  | clientOut result =>
    obtain ⟨up, hup, rfl⟩ := Option.map_eq_some_iff.mp hs
    exact h.clientOut hop hup
  | serverOut result =>
    obtain ⟨down, hdown, rfl⟩ := Option.map_eq_some_iff.mp hs
    exact h.serverOut hop hdown
  | serverIn bytes =>
    obtain ⟨up, hup, hcallback⟩ := Option.bind_eq_some_iff.mp hs
    obtain ⟨hrunning, s₁, hdone, hring⟩ := h.serverIn hsmall hup
    rw [if_pos hrunning, hdone] at hcallback
    cases hcallback
    exact hring
  | clientIn bytes =>
    obtain ⟨down, hdown, hcallback⟩ := Option.bind_eq_some_iff.mp hs
    obtain ⟨hrunning, s₁, hdone, hring⟩ := h.clientIn hsmall hdown
    rw [if_pos hrunning, hdone] at hcallback
    cases hcallback
    exact hring

/-- The events that move bytes. -/
def Op.Moves : Op → Prop
  | .clientOut (.wrote n) | .serverOut (.wrote n) => 0 < n
  | .serverIn _ | .clientIn _ => True
  | .connected | .clientOut .again | .clientOut .error | .serverOut .again | .serverOut .error => False

/-- What is under way can be moved. -/
theorem Idle.goesOn (h : Idle l) (hne : l.underway ≠ []) :
    (∃ l', l.step (.pollOut (.wrote 1)) = some l') ∨ ∃ b l', l.step (.pollIn [b]) = some l' := by
  obtain ⟨p, between, hcarries⟩ := h.carries
  obtain ⟨q, hq⟩ := h.receiver
  by_cases hqueued : l.sender.sendBuffer.toStringView = []
  · right
    have hflight : l.inFlight = l.underway := by
      unfold Link.underway
      rw [h.readable, hqueued, List.nil_append, List.append_nil]
    cases hbetween : between with
    | nil =>
      rw [← hflight, hcarries.inFlight, hbetween] at hne
      exact absurd rfl hne
    | cons b rest =>
      have htake : l.inFlight.take [b].length = [b].map some := by
        rw [hcarries.inFlight, hbetween]
        rfl
      have hsome := Link.enabled_pollIn hq.running (List.cons_ne_nil b []) (Link.one_le_iovTotal _) htake
      obtain ⟨l', hl'⟩ := Option.isSome_iff_exists.mp hsome
      exact ⟨b, l', hl'⟩
  · left
    exact Option.isSome_iff_exists.mp (hcarries.enabled_wrote h.running hqueued)

/-- The block is somewhere, and can be moved from there. -/
theorem Ring.goesOn (h : Ring message s) (hsmall : message.buf.length < 2^31) (hpos : message.buf ≠ [])
    (hconnected : s.connected = true) : ∃ op : Op, op.Moves ∧ (PingPong.step message s op).isSome = true := by
  have hlength := h.length_underway
  have hblock : block message s = message.buf := by
    unfold block
    exact if_pos hconnected
  have hmessage := List.length_pos_iff.mpr hpos
  rw [hblock] at hlength
  -- The block is not empty, so one of the directions has some of it.
  by_cases hup : s.up.underway = []
  · have hdown : s.down.underway ≠ [] := by
      rintro hdown
      rw [hup, hdown, List.length_nil] at hlength
      omega
    rcases h.down.goesOn hdown with ⟨down, hs⟩ | ⟨b, down, hs⟩
    · refine ⟨.serverOut (.wrote 1), Nat.one_pos, ?_⟩
      unfold PingPong.step
      dsimp only
      rw [hs]
      rfl
    · obtain ⟨hrunning, s', hdone, -⟩ := h.clientIn hsmall hs
      refine ⟨.clientIn [b], trivial, ?_⟩
      unfold PingPong.step
      dsimp only
      rw [hs, Option.bind_some, if_pos hrunning, hdone]
      rfl
  · rcases h.up.goesOn hup with ⟨up, hs⟩ | ⟨b, up, hs⟩
    · refine ⟨.clientOut (.wrote 1), Nat.one_pos, ?_⟩
      unfold PingPong.step
      dsimp only
      rw [hs]
      rfl
    · obtain ⟨hrunning, s', hdone, -⟩ := h.serverIn hsmall hs
      refine ⟨.serverIn [b], trivial, ?_⟩
      unfold PingPong.step
      dsimp only
      rw [hs, Option.bind_some, if_pos hrunning, hdone]
      rfl

/-- Nothing fails. The client has received the block again and again, and counted it; what is under way is the
block from the place that it has come to, and some event can move it on. -/
structure Circulates (message : Buf) (s : PingPong) : Prop where
  running : s.up.sender.fault = none ∧ s.up.receiver.reactor.fault = none ∧
    s.down.sender.fault = none ∧ s.down.receiver.reactor.fault = none
  received : ∀ i < s.down.receiver.retrieved.length,
    s.down.receiver.retrieved[i]? = (message.buf.map some)[i % message.buf.length]?
  underway : s.connected = true →
    s.down.underway ++ s.up.underway = (message.buf.map some).rotate s.down.receiver.retrieved.length
  bytesRead : s.bytesRead = BitVec.ofNat 64 s.down.receiver.retrieved.length
  bytesWritten : s.bytesWritten = s.bytesRead
  messagesRead : s.messagesRead = BitVec.ofNat 64 s.down.receiver.reads
  goesOn : s.connected = true → ∃ op : Op, op.Moves ∧ (step message s op).isSome = true

/-- The two links in series, which are fed with what they deliver. -/
theorem Ring.pipe (h : Ring message s) :
    ∃ r : Pipe UInt8, r.accepted = block message s ++ r.delivered ∧
      s.down.receiver.retrieved = r.delivered.map some ∧
      s.down.underway ++ s.up.underway = r.queued.map some := by
  obtain ⟨p, hp⟩ := h.up.refines
  obtain ⟨q, hq⟩ := h.down.refines
  have hinjective : Function.Injective (List.map (some : UInt8 → NoInit)) :=
    List.map_injective_iff.mpr fun _ _ => Option.some.inj
  have hup : carried s.up = p.accepted.map some := hp.conserved
  have hdown : carried s.down = q.accepted.map some := hq.conserved
  have hfed : q.accepted ++ [] = p.delivered := by
    rw [List.append_nil]
    apply hinjective
    rw [← hdown, ← hp.delivered]
    exact h.fedDown.symm
  refine ⟨p.join q [] hfed, ?_, hq.delivered, ?_⟩
  · apply hinjective
    show p.accepted.map some = (block message s ++ q.delivered).map some
    rw [← hup, h.fedUp, hq.delivered, List.map_append]
  · show _ = (q.queued ++ [] ++ p.queued).map some
    rw [List.append_nil, List.map_append, hp.queued, hq.queued]

theorem Ring.circulates (h : Ring message s) (hsmall : message.buf.length < 2^31) (hpos : message.buf ≠ []) :
    Circulates message s := by
  obtain ⟨r, hring, hdelivered, hqueued⟩ := h.pipe
  obtain ⟨p, hp⟩ := h.up.receiver
  obtain ⟨q, hq⟩ := h.down.receiver
  refine ⟨⟨h.up.running, hp.running, h.down.running, hq.running⟩, fun i hi => ?_, fun hconnected => ?_,
    h.bytesRead, h.bytesWritten, h.messagesRead, h.goesOn hsmall hpos⟩
  · rw [hdelivered, List.length_map] at hi
    have hconnected : s.connected = true := by
      by_contra hnot
      -- Nothing has been sent yet.
      have hsent := h.unconnected (Bool.eq_false_iff.mpr hnot)
      have hfedUp := congrArg List.length h.fedUp
      rw [hsent, List.length_nil, List.length_append, hdelivered, List.length_map, List.length_map] at hfedUp
      omega
    have hblock : block message s = message.buf := if_pos hconnected
    rw [hblock] at hring
    rw [hdelivered, List.getElem?_map, List.getElem?_map, Pipe.delivered_of_ring hpos hring hi]
  · have hblock : block message s = message.buf := if_pos hconnected
    rw [hblock] at hring
    rw [hqueued, hdelivered, Pipe.queued_of_ring hring, List.length_map, List.map_rotate]

/-- Over every run whose writes do not fail, of any length, the block goes round. Its size is an `int`. -/
theorem circulates_of_run (message : Buf) (hsmall : message.buf.length < 2^31) (hpos : message.buf ≠ [])
    (ops : List Op) (hops : ∀ op ∈ ops, op.Writes) :
    Machine.Always (step message) (Circulates message) initial ops :=
  Machine.always_of_meets (fun _ h => h.circulates hsmall hpos)
    (fun _ _ _ h hop hs => h.step hsmall hop hs) (ring_initial message) (Machine.meets_of_labels hops)

/-- A block of three bytes, which comes back in two pieces. -/
def twoPieces : List Op :=
  [.connected, .clientOut (.wrote 2), .serverIn [0, 1], .serverOut (.wrote 2), .clientOut (.wrote 1),
    .clientIn [0, 1], .serverIn [2], .serverOut .again, .serverOut (.wrote 1), .clientIn [2]]

theorem circulates_three :
    (Machine.run (step ⟨PingPong.message 3, by decide⟩) initial twoPieces).isSome = true ∧
      Machine.Always (step ⟨PingPong.message 3, by decide⟩) (Circulates ⟨PingPong.message 3, by decide⟩)
        initial twoPieces := by
  constructor
  · decide +kernel
  · exact circulates_of_run ⟨PingPong.message 3, by decide⟩ (by decide) (by decide) twoPieces (by decide)

end PingPong

end Hulatang
