import Mathlib.Algebra.Group.Nat.Defs
import Mathlib.Tactic.SplitIfs
import Hulatang.Lib.Machine
import Hulatang.Lib.Pipe
import Hulatang.Base.Placement

/-!
# The receiving half of a connection on `WSProactor`

A `READ` is outstanding whenever `messageCallback` does not run: the system writes what arrives to the free
space of `recvBuffer` as it was when the `READ` was posted, and `handleRead` takes as many bytes from where
the writer index is by then. A `READ` that fills the free space is followed by one `WSARecv` that does not
wait, whose bytes are appended.

`messageCallback` is handed a pointer to `recvBuffer`, which stays valid when it has returned. Bytes may be
retrieved at any time, except that outside of the callback some must be left: `retrieve` of the last ones
resets the indices, but not the place that the outstanding `READ` was posted with. The stream that is
retrieved is the one that arrives, whatever arrives from there on, exactly when every retrieval keeps to that
(`intact_iff_consumes`).
-/

namespace Hulatang

/-- What `WSAGetLastError` returns. -/
abbrev WSAError := ℕ

def WSA_IO_PENDING : WSAError := 997
def WSAEWOULDBLOCK : WSAError := 10035
def WSAECONNABORTED : WSAError := 10053
def WSAECONNRESET : WSAError := 10054

/-- The region of a posted `READ`, `buf` as a place in the vector. -/
structure WSABuf where
  buf : ℕ
  len : ℕ
  deriving DecidableEq

/-- What the `WSARecv` of `handleRead` returns, with what it has written to `data`. -/
inductive RecvResult
  | received (data : List UInt8)
  | failed (err : WSAError)
  deriving DecidableEq

/-- `data` is that long. -/
def dataSize : ℕ := 65536

/-- It has written no more than `data` holds. -/
def RecvResult.Fits : RecvResult → Prop
  | .received data => data.length ≤ dataSize
  | .failed _ => True

instance : (result : RecvResult) → Decidable result.Fits
  | .received data => inferInstanceAs (Decidable (data.length ≤ dataSize))
  | .failed _ => inferInstanceAs (Decidable True)

/-- The receiving half of a connection on the IOCP loop. -/
structure PostedRead where
  readBuf : Buffer
  /-- The outstanding `READ`, if there is one. -/
  posted : Option WSABuf
  /-- Whether `messageCallback` runs. -/
  receiving : Bool
  /-- What has arrived. -/
  received : List UInt8
  /-- How much of it when `messageCallback` was called last. -/
  announced : ℕ
  /-- What has been retrieved. -/
  retrieved : List NoInit
  /-- What `errorCallback` has been called with. -/
  errors : List WSAError
  /-- How often `closeCallback` has been called. -/
  closes : ℕ
  /-- How an operation has failed, if one has. -/
  fault : Option Fault
  deriving DecidableEq

namespace PostedRead

def MinRecvBufferSize : ℕ := 1024

def fail (s : PostedRead) (fault : Fault) : PostedRead := { s with fault := some fault }

def handleClose (s : PostedRead) : PostedRead := { s with closes := s.closes + 1 }

def handleError (s : PostedRead) (err : WSAError) : PostedRead := { s with errors := s.errors ++ [err] }

def error (s : PostedRead) (err : WSAError) : PostedRead :=
  let s := if err ≠ WSAECONNABORTED ∧ err ≠ WSAECONNRESET then s.handleError err else s
  s.handleClose

def messageCallback (s : PostedRead) : PostedRead :=
  { s with receiving := true, announced := s.received.length }

/-- `WSProactor::postRecv`, with the error of its `WSARecv`, if it has one. The length is a `ULONG`. -/
def postRecv (s : PostedRead) (err : Option WSAError) : PostedRead :=
  let s := { s with receiving := false }
  match s.readBuf.ensureWritableBytes MinRecvBufferSize with
  | .error fault => s.fail fault
  | .ok readBuf =>
    let s := { s with readBuf := readBuf }
    let posted := { s with posted := some ⟨readBuf.writerIndex, readBuf.writableBytes % 2^32⟩ }
    match err with
    | none => posted
    | some err => if err = WSA_IO_PENDING then posted else s.error err

/-- The second `WSARecv` of `handleRead`, and what follows it up to `messageCallback`. -/
def readMore (s : PostedRead) : RecvResult → PostedRead
  | .failed err =>
    if err = WSAEWOULDBLOCK then
      match s.readBuf.ensureWritableBytes MinRecvBufferSize with
      | .error fault => s.fail fault
      | .ok readBuf => { s with readBuf := readBuf }.messageCallback
    else s.error err
  | .received data =>
    let s := { s with received := s.received ++ data }
    if 0 < data.length then
      match s.readBuf.append data with
      | .error fault => s.fail fault
      | .ok readBuf => { s with readBuf := readBuf }.messageCallback
    else s.messageCallback

/-- `WSProactor::handleRead`, up to its `messageCallback`. -/
def handleRead (s : PostedRead) (numberOfBytesTransferred : ℕ) (result : RecvResult) : PostedRead :=
  let writableBytes := s.readBuf.writableBytes
  match s.readBuf.hasWritten numberOfBytesTransferred with
  | .error fault => s.fail fault
  | .ok readBuf =>
    let s := { s with readBuf := readBuf }
    if numberOfBytesTransferred = 0 then s.handleClose
    else if numberOfBytesTransferred = writableBytes then s.readMore result
    else s.messageCallback

/-- The system has written the bytes to the region of the `READ`, which is outstanding no more. -/
def transfer (s : PostedRead) (wsabuf : WSABuf) (bytes : List UInt8) : PostedRead :=
  { s with
    readBuf := { s.readBuf with buffer := overwrite s.readBuf.buffer wsabuf.buf (bytes.map some) }
    posted := none
    received := s.received ++ bytes }

/-- `retrieve`, called inside of the callback or outside of it. -/
def retrieve (s : PostedRead) (n : ℕ) : PostedRead :=
  match s.readBuf.retrieve n with
  | .error fault => s.fail fault
  | .ok readBuf =>
    { s with readBuf := readBuf, retrieved := s.retrieved ++ s.readBuf.toStringView.take n }

/-- The connection before its `WSProactor` is made. -/
def fresh : PostedRead where
  readBuf := .ofSize Buffer.kInitialSize
  posted := none
  receiving := false
  received := []
  announced := 0
  retrieved := []
  errors := []
  closes := 0
  fault := none

/-- What the constructor leaves. -/
def initial (err : Option WSAError) : PostedRead := fresh.postRecv err

/-- The steps of a run. -/
inductive Op
  /-- The outstanding `READ` completes, and `handleRead` is called. -/
  | completion (bytes : List UInt8) (result : RecvResult)
  | retrieve (n : ℕ)
  /-- `messageCallback` returns. -/
  | postRecv (err : Option WSAError)
  deriving DecidableEq

/-- One step, as long as nothing has failed. -/
def step (s : PostedRead) (op : Op) : Option PostedRead :=
  if s.fault = none then
    match op with
    | .completion bytes result =>
      match s.posted with
      | none => none
      | some wsabuf =>
        if bytes.length ≤ wsabuf.len ∧ result.Fits then
          some ((s.transfer wsabuf bytes).handleRead bytes.length result)
        else none
    | .retrieve n => some (s.retrieve n)
    | .postRecv err => if s.receiving then some (s.postRecv err) else none
  else none

/-! ## What is to hold -/

/-- What has been retrieved and what is readable is what has arrived. As long as the connection is not closed,
which it is at most once, `messageCallback` has been called since the last of it arrived, and either runs or a
`READ` is outstanding. -/
structure InOrder (s : PostedRead) : Prop where
  running : s.fault = none
  conserved : s.retrieved ++ s.readBuf.toStringView = s.received.map some
  announced : s.closes = 0 → s.announced = s.received.length
  once : s.closes ≤ 1
  armed : s.closes = 0 → (s.receiving = true ↔ s.posted = none)

/-- An exception of `std::vector` has left an operation. All that has been received, and the least room for
more, would not fit an object. -/
structure Thrown (s : PostedRead) : Prop where
  thrown : s.fault = some .lengthError
  big : maxSize < Buffer.kCheapPrepend + s.received.length + MinRecvBufferSize

def Intact (s : PostedRead) : Prop := InOrder s ∨ Thrown s

/-- Bytes may arrive in the region of an outstanding `READ`. -/
def Listening (s : PostedRead) : Prop := ∃ wsabuf ∈ s.posted, 0 < wsabuf.len

/-- A retrieval is of what is there, and of the last bytes only while none may arrive. -/
def Consumes (s : PostedRead) : Op → Prop
  | .retrieve n =>
    n ≤ s.readBuf.readableBytes ∧ (s.Listening → n < s.readBuf.readableBytes ∨ s.readBuf.readableBytes = 0)
  | _ => True

instance (s : PostedRead) : Decidable s.Listening := inferInstanceAs (Decidable (∃ wsabuf ∈ s.posted, _))

instance (s : PostedRead) : DecidablePred s.Consumes
  | .retrieve n =>
    inferInstanceAs (Decidable (n ≤ s.readBuf.readableBytes ∧
      (s.Listening → n < s.readBuf.readableBytes ∨ s.readBuf.readableBytes = 0)))
  | .completion _ _ | .postRecv _ => inferInstanceAs (Decidable True)

/-- A step that is not the user's. -/
def External : Op → Prop
  | .retrieve _ => False
  | _ => True

/-! ## The receive buffer -/

/-- The readable bytes begin behind `kCheapPrepend`, and at it where there are none. -/
structure Front (b : Buffer) : Prop where
  reader_ge : Buffer.kCheapPrepend ≤ b.readerIndex
  reset : b.readableBytes = 0 → b.readerIndex = Buffer.kCheapPrepend

section Buffers

variable {b b' : Buffer} {len : ℕ} {data : List UInt8}

/-- An append, or what makes room for it, moves the readable bytes to the front, if at all. -/
theorem reader_of_placed (hfront : Front b) (hplaced : b.Placed len b') :
    Buffer.kCheapPrepend ≤ b'.readerIndex ∧ b'.readerIndex ≤ b.readerIndex := by
  have hge := hfront.reader_ge
  cases hplaced with
  | room _ hreader _ => omega
  | grown _ _ hreader _ => omega
  | compacted _ _ hreader hmoved _ => omega

/-- The indices of a buffer to whose readable bytes some have been added. -/
theorem writer_of_view (hwf : b.WellFormed) (hwf' : b'.WellFormed) {str : List NoInit}
    (hview : b'.toStringView = b.toStringView ++ str) (hreader : b'.readerIndex ≤ b.readerIndex) :
    b'.readableBytes = b.readableBytes + str.length ∧ b'.writerIndex ≤ b.writerIndex + str.length := by
  have hlength := congrArg List.length hview
  rw [List.length_append, hwf.length_toStringView, hwf'.length_toStringView] at hlength
  have hreadable := hwf.readableBytes_eq
  have hreadable' := hwf'.readableBytes_eq
  have hle := hwf.reader_le
  have hle' := hwf'.reader_le
  omega

/-- What an operation that adds to the readable bytes leaves of the buffer. -/
structure Adds (b : Buffer) (str : List NoInit) (b' : Buffer) : Prop where
  wellFormed : b'.WellFormed
  front : Front b'
  view : b'.toStringView = b.toStringView ++ str
  writer : b'.writerIndex ≤ b.writerIndex + str.length

theorem adds_of_reader (hwf : b.WellFormed) (hfront : Front b) (hwf' : b'.WellFormed) {str : List NoInit}
    (hview : b'.toStringView = b.toStringView ++ str)
    (hreader : Buffer.kCheapPrepend ≤ b'.readerIndex ∧ b'.readerIndex ≤ b.readerIndex) : Adds b str b' := by
  obtain ⟨hreadable, hwriter⟩ := writer_of_view hwf hwf' hview hreader.2
  refine ⟨hwf', ⟨hreader.1, fun hempty => ?_⟩, hview, hwriter⟩
  have hreset := hfront.reset (by omega)
  omega

theorem ensureWritableBytes_or (hwf : b.WellFormed) (hfront : Front b) (hlen : len ≤ maxSize) :
    (∃ b', b.ensureWritableBytes len = .ok b' ∧ Adds b [] b') ∨
      b.ensureWritableBytes len = .error .lengthError ∧ maxSize < b.writerIndex + len := by
  rcases hwf.ensureWritableBytes hlen with ⟨b', hensured, hwf', hview, -⟩ | hthrown
  · have hreader := reader_of_placed hfront (hwf.placed_ensureWritableBytes hlen hensured)
    refine .inl ⟨b', hensured, adds_of_reader hwf hfront hwf' ?_ hreader⟩
    rw [hview, List.append_nil]
  · exact .inr hthrown

theorem append_or (hwf : b.WellFormed) (hfront : Front b) (hlen : data.length ≤ maxSize) :
    (∃ b', b.append data = .ok b' ∧ Adds b (data.map some) b') ∨
      b.append data = .error .lengthError ∧ maxSize < b.writerIndex + data.length := by
  rcases hwf.append hlen with ⟨b', happend, hwf', hview⟩ | hthrown
  · have hreader := reader_of_placed hfront (hwf.placed_append hlen happend)
    exact .inl ⟨b', happend, adds_of_reader hwf hfront hwf' hview hreader⟩
  · exact .inr hthrown

/-- What has been copied to the free space is taken. -/
theorem hasWritten_of_copy (hwf : b.WellFormed) (hfront : Front b) (hroom : data.length ≤ b.writableBytes) :
    ∃ b', { b with buffer := overwrite b.buffer b.writerIndex (data.map some) }.hasWritten data.length =
        .ok b' ∧ Adds b (data.map some) b' := by
  obtain ⟨b', hdone, hwf', hview, -⟩ := hwf.written (data.map some) (by rwa [List.length_map])
  rw [List.length_map] at hdone
  have hreader : b'.readerIndex = b.readerIndex := by
    unfold Buffer.hasWritten at hdone
    split_ifs at hdone
    cases hdone
    rfl
  have hge := hfront.reader_ge
  exact ⟨b', hdone, adds_of_reader hwf hfront hwf' hview (by omega)⟩

/-- A retrieval of less than all leaves the writer index, and one of all resets it. -/
theorem retrieve_cases (h : b.retrieve len = .ok b') :
    len < b.readableBytes ∧ b' = { b with readerIndex := addSize b.readerIndex len } ∨
      ¬ len < b.readableBytes ∧ b' = b.retrieveAll := by
  unfold Buffer.retrieve at h
  split_ifs at h with hle hlt
  · cases h
    exact .inl ⟨hlt, rfl⟩
  · cases h
    exact .inr ⟨hlt, rfl⟩

theorem front_retrieve (hwf : b.WellFormed) (hfront : Front b) (h : b.retrieve len = .ok b') :
    Front b' ∧ b'.writerIndex ≤ b.writerIndex := by
  have hreadable := hwf.readableBytes_eq
  have hge := hfront.reader_ge
  have hle := hwf.reader_le
  have hwriter := hwf.writer_le
  have hlength := hwf.length_lt
  rcases retrieve_cases h with ⟨hlt, rfl⟩ | ⟨-, rfl⟩
  · have hindex : addSize b.readerIndex len = b.readerIndex + len := addSize_eq (by omega)
    have hleft : b.writerIndex - (b.readerIndex + len) ≠ 0 := by omega
    refine ⟨⟨?_, fun hempty => absurd hempty ?_⟩, Nat.le_refl _⟩
    · show Buffer.kCheapPrepend ≤ addSize b.readerIndex len
      omega
    · show subSize b.writerIndex (addSize b.readerIndex len) ≠ 0
      rw [hindex, subSize_eq (by omega) (by omega)]
      exact hleft
  · exact ⟨⟨Nat.le_refl _, fun _ => rfl⟩, Nat.le_trans hge hle⟩

end Buffers

/-! ## What every step keeps -/

/-- The buffer implements the pipe. -/
structure Carries (s : PostedRead) (p : Pipe UInt8) : Prop where
  running : s.fault = none
  wellFormed : s.readBuf.WellFormed
  front : Front s.readBuf
  accepted : s.received = p.accepted
  delivered : s.retrieved = p.delivered.map some
  queued : s.readBuf.toStringView = p.queued.map some
  writer : s.readBuf.writerIndex ≤ Buffer.kCheapPrepend + s.received.length

/-- What arrives is written to where the next bytes are taken from. -/
def Covers (s : PostedRead) (wsabuf : WSABuf) : Prop :=
  0 < wsabuf.len → wsabuf.buf = s.readBuf.writerIndex ∧ wsabuf.len ≤ s.readBuf.writableBytes

/-- Either the callback runs or a `READ` is outstanding, until the connection is closed. -/
inductive Phase (s : PostedRead) : Prop
  | receiving (opened : s.closes = 0) (called : s.receiving = true) (posted : s.posted = none)
      (announced : s.announced = s.received.length)
  | listening (opened : s.closes = 0) (returned : s.receiving = false) {wsabuf : WSABuf}
      (posted : s.posted = some wsabuf) (covers : s.Covers wsabuf)
      (announced : s.announced = s.received.length)
  | closed (once : s.closes = 1) (returned : s.receiving = false) (posted : s.posted = none)

structure Refines (s : PostedRead) (p : Pipe UInt8) : Prop where
  carries : Carries s p
  phase : Phase s

/-- Neither does the callback run nor is a `READ` outstanding: a handler is in between. -/
structure Handling (s : PostedRead) : Prop where
  opened : s.closes = 0
  returned : s.receiving = false
  posted : s.posted = none

variable {s t : PostedRead} {p : Pipe UInt8} {bytes data : List UInt8} {result : RecvResult} {n : ℕ}

theorem Refines.inOrder (h : Refines s p) : InOrder s := by
  have hconserved : s.retrieved ++ s.readBuf.toStringView = s.received.map some := by
    rw [h.carries.delivered, h.carries.queued, h.carries.accepted, ← List.map_append, p.conserved]
  cases h.phase with
  | receiving hopened hcalled hposted hannounced =>
    refine ⟨h.carries.running, hconserved, fun _ => hannounced, by omega, fun _ => ?_⟩
    exact iff_of_true hcalled hposted
  | listening hopened hreturned hposted _ hannounced =>
    refine ⟨h.carries.running, hconserved, fun _ => hannounced, by omega, fun _ => ?_⟩
    rw [hreturned, hposted]
    exact iff_of_false Bool.false_ne_true (Option.some_ne_none _)
  | closed honce _ _ =>
    exact ⟨h.carries.running, hconserved, by omega, by omega, by omega⟩

namespace Carries

variable (h : Carries s p)

include h

theorem of_eq (hbuffer : t.readBuf = s.readBuf) (hreceived : t.received = s.received)
    (hretrieved : t.retrieved = s.retrieved) (hfault : t.fault = s.fault) : Carries t p := by
  constructor
  · rw [hfault, h.running]
  · rw [hbuffer]
    exact h.wellFormed
  · rw [hbuffer]
    exact h.front
  · rw [hreceived, h.accepted]
  · rw [hretrieved, h.delivered]
  · rw [hbuffer, h.queued]
  · rw [hbuffer, hreceived]
    exact h.writer

theorem adds {b' : Buffer} (hadds : Adds s.readBuf (bytes.map some) b') :
    Carries { s with readBuf := b', received := s.received ++ bytes } (p.push bytes) := by
  have hwriter := h.writer
  have hwriter' := hadds.writer
  rw [List.length_map] at hwriter'
  refine ⟨h.running, hadds.wellFormed, hadds.front, ?_, h.delivered, ?_, ?_⟩
  · show s.received ++ bytes = p.accepted ++ bytes
    rw [h.accepted]
  · show b'.toStringView = (p.queued ++ bytes).map some
    rw [hadds.view, h.queued, List.map_append]
  · show b'.writerIndex ≤ Buffer.kCheapPrepend + (s.received ++ bytes).length
    rw [List.length_append]
    omega

theorem roomy {b' : Buffer} (hadds : Adds s.readBuf [] b') : Carries { s with readBuf := b' } p := by
  have hwriter := h.writer
  have hwriter' := hadds.writer
  rw [List.length_nil] at hwriter'
  refine ⟨h.running, hadds.wellFormed, hadds.front, h.accepted, h.delivered, ?_, ?_⟩
  · show b'.toStringView = p.queued.map some
    rw [hadds.view, List.append_nil, h.queued]
  · show b'.writerIndex ≤ Buffer.kCheapPrepend + s.received.length
    omega

/-- Room for the least that is read is made, or the vector would be too large. -/
theorem ensureWritableBytes_or :
    (∃ b', s.readBuf.ensureWritableBytes MinRecvBufferSize = .ok b' ∧ Carries { s with readBuf := b' } p) ∨
      s.readBuf.ensureWritableBytes MinRecvBufferSize = .error .lengthError ∧
        maxSize < Buffer.kCheapPrepend + s.received.length + MinRecvBufferSize := by
  have hlen : MinRecvBufferSize ≤ maxSize := by decide
  have hwriter := h.writer
  rcases PostedRead.ensureWritableBytes_or h.wellFormed h.front hlen with
    ⟨b', hensured, hadds⟩ | ⟨hthrown, hbig⟩
  · exact .inl ⟨b', hensured, h.roomy hadds⟩
  · exact .inr ⟨hthrown, by omega⟩

theorem messageCallback (hhandling : Handling s) : Refines s.messageCallback p :=
  ⟨h.of_eq rfl rfl rfl rfl, .receiving hhandling.opened rfl hhandling.posted rfl⟩

theorem handleClose (hhandling : Handling s) : Refines s.handleClose p := by
  refine ⟨h.of_eq rfl rfl rfl rfl, .closed ?_ hhandling.returned hhandling.posted⟩
  show s.closes + 1 = 1
  rw [hhandling.opened]

theorem error (hhandling : Handling s) (err : WSAError) : Refines (s.error err) p := by
  unfold PostedRead.error
  dsimp only
  split_ifs
  · have hcarries : Carries (s.handleError err) p := h.of_eq rfl rfl rfl rfl
    exact hcarries.handleClose ⟨hhandling.opened, hhandling.returned, hhandling.posted⟩
  · exact h.handleClose hhandling

/-- A `READ` is posted to the free space, or the connection is closed. -/
theorem postRecv (hopened : s.closes = 0) (hposted : s.posted = none)
    (hannounced : s.announced = s.received.length) (err : Option WSAError) :
    Refines (s.postRecv err) p ∨ Thrown (s.postRecv err) := by
  unfold PostedRead.postRecv
  dsimp only
  rcases h.ensureWritableBytes_or with ⟨b', hensured, hcarries⟩ | ⟨hthrown, hbig⟩
  · rw [hensured]
    dsimp only
    have hregion : b'.writableBytes % 2^32 ≤ b'.writableBytes := Nat.mod_le ..
    have hlistening : Refines
        { s with
          receiving := false, readBuf := b',
          posted := some ⟨b'.writerIndex, b'.writableBytes % 2^32⟩ } p :=
      ⟨hcarries.of_eq rfl rfl rfl rfl, .listening hopened rfl rfl (fun _ => ⟨rfl, hregion⟩) hannounced⟩
    cases err with
    | none => exact .inl hlistening
    | some err =>
      dsimp only
      split_ifs
      · exact .inl hlistening
      · have hclosed : Carries { s with receiving := false, readBuf := b' } p :=
          hcarries.of_eq rfl rfl rfl rfl
        exact .inl (hclosed.error ⟨hopened, rfl, hposted⟩ err)
  · rw [hthrown]
    exact .inr ⟨rfl, hbig⟩

/-- What the second `WSARecv` has read is appended. -/
theorem readMore (hhandling : Handling s) (hfits : result.Fits) :
    (∃ p', Refines (s.readMore result) p') ∨ Thrown (s.readMore result) := by
  have hwriter := h.writer
  cases result with
  | failed err =>
    unfold PostedRead.readMore
    dsimp only
    split_ifs
    · rcases h.ensureWritableBytes_or with ⟨b', hensured, hroomy⟩ | ⟨hthrown, hbig⟩
      · rw [hensured]
        exact .inl ⟨p, hroomy.messageCallback ⟨hhandling.opened, hhandling.returned, hhandling.posted⟩⟩
      · rw [hthrown]
        exact .inr ⟨rfl, hbig⟩
    · exact .inl ⟨p, h.error hhandling err⟩
  | received data =>
    change data.length ≤ dataSize at hfits
    unfold PostedRead.readMore
    dsimp only
    split_ifs with hpos
    · have hlen : data.length ≤ maxSize := Nat.le_trans hfits (by decide)
      rcases append_or h.wellFormed h.front hlen with ⟨b', happend, hadds⟩ | ⟨hthrown, hbig⟩
      · rw [happend]
        have hadded := h.adds hadds
        exact .inl ⟨_, hadded.messageCallback ⟨hhandling.opened, hhandling.returned, hhandling.posted⟩⟩
      · rw [hthrown]
        refine .inr ⟨rfl, ?_⟩
        show maxSize < Buffer.kCheapPrepend + (s.received ++ data).length + MinRecvBufferSize
        rw [List.length_append]
        omega
    · obtain rfl : data = [] := List.eq_nil_of_length_eq_zero (by omega)
      rw [List.append_nil]
      exact .inl ⟨p, h.messageCallback hhandling⟩

end Carries

/-- The bytes are written to where they are taken from. -/
theorem readBuf_transfer {wsabuf : WSABuf} (hcovers : s.Covers wsabuf) (hlen : bytes.length ≤ wsabuf.len) :
    (s.transfer wsabuf bytes).readBuf =
      { s.readBuf with buffer := overwrite s.readBuf.buffer s.readBuf.writerIndex (bytes.map some) } := by
  rcases Nat.eq_zero_or_pos wsabuf.len with hempty | hpos
  · obtain rfl : bytes = [] := List.eq_nil_of_length_eq_zero (by omega)
    have hsame : ∀ i, overwrite s.readBuf.buffer i [] = s.readBuf.buffer := by
      intro i
      unfold overwrite
      rw [List.append_nil, List.length_nil, Nat.add_zero, List.take_append_drop]
    show { s.readBuf with buffer := overwrite s.readBuf.buffer wsabuf.buf [] } = _
    rw [List.map_nil, hsame, hsame]
  · show { s.readBuf with buffer := overwrite s.readBuf.buffer wsabuf.buf (bytes.map some) } = _
    rw [(hcovers hpos).1]

/-- While a `READ` is outstanding, what arrives is written to where it is taken from. -/
theorem Refines.listening (h : Refines s p) {wsabuf : WSABuf} (hposted : s.posted = some wsabuf) :
    s.closes = 0 ∧ s.receiving = false ∧ s.Covers wsabuf := by
  cases h.phase with
  | receiving _ _ hnone _ => cases hnone.symm.trans hposted
  | closed _ _ hnone => cases hnone.symm.trans hposted
  | listening hopened hreturned hsome hcovers _ =>
    cases hsome.symm.trans hposted
    exact ⟨hopened, hreturned, hcovers⟩

theorem Refines.completion (h : Refines s p) {wsabuf : WSABuf} (hposted : s.posted = some wsabuf)
    (hlen : bytes.length ≤ wsabuf.len) (hfits : result.Fits) :
    (∃ p', Refines ((s.transfer wsabuf bytes).handleRead bytes.length result) p') ∨
      Thrown ((s.transfer wsabuf bytes).handleRead bytes.length result) := by
  obtain ⟨hopened, hreturned, hcovers⟩ := h.listening hposted
  have hroom : bytes.length ≤ s.readBuf.writableBytes := by
    rcases Nat.eq_zero_or_pos bytes.length with hempty | hpos
    · omega
    · have hle := (hcovers (by omega)).2
      omega
  obtain ⟨b', hdone, hadds⟩ := hasWritten_of_copy h.carries.wellFormed h.carries.front hroom
  rw [← readBuf_transfer hcovers hlen] at hdone
  have hadded : Carries { s.transfer wsabuf bytes with readBuf := b' } (p.push bytes) :=
    (h.carries.adds hadds).of_eq rfl rfl rfl rfl
  have hhandling : Handling { s.transfer wsabuf bytes with readBuf := b' } := ⟨hopened, hreturned, rfl⟩
  unfold PostedRead.handleRead
  rw [hdone]
  dsimp only
  split_ifs
  · exact .inl ⟨_, hadded.handleClose hhandling⟩
  · exact hadded.readMore hhandling hfits
  · exact .inl ⟨_, hadded.messageCallback hhandling⟩

/-- The retrieval leaves the region of an outstanding `READ` at the free space. -/
theorem covers_retrieve (h : Carries s p) {wsabuf : WSABuf} (hposted : s.posted = some wsabuf)
    (hcovers : s.Covers wsabuf) {b' : Buffer} (hretrieve : s.readBuf.retrieve n = .ok b')
    (hconsumes : s.Listening → n < s.readBuf.readableBytes ∨ s.readBuf.readableBytes = 0)
    (hpos : 0 < wsabuf.len) :
    wsabuf.buf = b'.writerIndex ∧ wsabuf.len ≤ b'.writableBytes := by
  obtain ⟨hbuf, hlen⟩ := hcovers hpos
  rcases retrieve_cases hretrieve with ⟨-, rfl⟩ | ⟨hall, rfl⟩
  · exact ⟨hbuf, hlen⟩
  · -- Nothing was readable, so the indices are where they were.
    have hempty := (hconsumes ⟨wsabuf, hposted, hpos⟩).resolve_left hall
    have hwriter : s.readBuf.writerIndex = Buffer.kCheapPrepend := by
      have hreset := h.front.reset hempty
      have hreadable := h.wellFormed.readableBytes_eq
      have hle := h.wellFormed.reader_le
      omega
    rw [hwriter] at hbuf
    unfold Buffer.writableBytes at hlen
    rw [hwriter] at hlen
    exact ⟨hbuf, hlen⟩

theorem Refines.retrieve (h : Refines s p) (hconsumes : s.Consumes (.retrieve n)) :
    Refines (s.retrieve n) (p.pop n) := by
  obtain ⟨hn, hlast⟩ := hconsumes
  obtain ⟨b', hretrieve, hwf, hview⟩ := h.carries.wellFormed.retrieve hn
  obtain ⟨hfront, hwriter⟩ := front_retrieve h.carries.wellFormed h.carries.front hretrieve
  unfold PostedRead.retrieve
  rw [hretrieve]
  constructor
  · refine ⟨h.carries.running, hwf, hfront, h.carries.accepted, ?_, ?_, Nat.le_trans hwriter h.carries.writer⟩
    · show s.retrieved ++ s.readBuf.toStringView.take n = (p.delivered ++ p.queued.take n).map some
      rw [h.carries.delivered, h.carries.queued, List.map_append, List.map_take]
    · show b'.toStringView = (p.queued.drop n).map some
      rw [hview, h.carries.queued, List.map_drop]
  · cases h.phase with
    | receiving hopened hcalled hposted hannounced => exact .receiving hopened hcalled hposted hannounced
    | listening hopened hreturned hposted hcovers hannounced =>
      exact .listening hopened hreturned hposted (covers_retrieve h.carries hposted hcovers hretrieve hlast)
        hannounced
    | closed honce hreturned hposted => exact .closed honce hreturned hposted

/-! ## Runs -/

/-- A step is enabled only while nothing has failed. -/
theorem running_of_step {op : Op} (hs : s.step op = some t) : s.fault = none := by
  by_contra hne
  unfold step at hs
  rw [if_neg hne] at hs
  cases hs

/-- What a step that is enabled does. -/
theorem step_cases {op : Op} (hs : s.step op = some t) :
    (∃ bytes result wsabuf, op = .completion bytes result ∧ s.posted = some wsabuf ∧
        bytes.length ≤ wsabuf.len ∧ result.Fits ∧
        t = (s.transfer wsabuf bytes).handleRead bytes.length result) ∨
      (∃ n, op = .retrieve n ∧ t = s.retrieve n) ∨
      ∃ err, op = .postRecv err ∧ s.receiving = true ∧ t = s.postRecv err := by
  have hrunning := running_of_step hs
  unfold step at hs
  rw [if_pos hrunning] at hs
  cases op with
  | completion bytes result =>
    dsimp only at hs
    split at hs
    · cases hs
    · rename_i wsabuf hposted
      split_ifs at hs with henabled
      exact .inl ⟨bytes, result, wsabuf, rfl, hposted, henabled.1, henabled.2, (Option.some.inj hs).symm⟩
  | retrieve n => exact .inr (.inl ⟨n, rfl, (Option.some.inj hs).symm⟩)
  | postRecv err =>
    dsimp only at hs
    split_ifs at hs with hcalled
    exact .inr (.inr ⟨err, rfl, hcalled, (Option.some.inj hs).symm⟩)

theorem Refines.step {op : Op} (h : Refines s p) (hconsumes : s.Consumes op) (hs : s.step op = some t) :
    (∃ p', Refines t p') ∨ Thrown t := by
  rcases step_cases hs with ⟨bytes, result, wsabuf, rfl, hposted, hlen, hfits, rfl⟩ | ⟨n, rfl, rfl⟩ |
    ⟨err, rfl, hcalled, rfl⟩
  · exact h.completion hposted hlen hfits
  · exact .inl ⟨_, h.retrieve hconsumes⟩
  · cases h.phase with
    | receiving hopened _ hposted hannounced =>
      exact (h.carries.postRecv hopened hposted hannounced err).imp_left fun hnext => ⟨p, hnext⟩
    | listening _ hreturned _ _ _ => cases hreturned.symm.trans hcalled
    | closed _ hreturned _ => cases hreturned.symm.trans hcalled

/-! ## A retrieval that breaks the stream -/

theorem exists_ne (xs : List NoInit) : ∃ byte : UInt8, xs ≠ [some byte] := by
  by_cases h : xs = [some 0]
  · refine ⟨1, ?_⟩
    rw [h]
    decide
  · exact ⟨0, h⟩

/-- Behind indices that were reset, the byte that is taken is the one at the front. -/
theorem hasWritten_of_reset {b : Buffer} (hvalid : b.Valid) (hreader : b.readerIndex = Buffer.kCheapPrepend)
    (hwriter : b.writerIndex = Buffer.kCheapPrepend) (hroom : 1 ≤ b.writableBytes) :
    ∃ b', b.hasWritten 1 = .ok b' ∧
      b'.toStringView = segment b.buffer Buffer.kCheapPrepend (Buffer.kCheapPrepend + 1) := by
  have hlength := hvalid.length_lt
  have hwritable := hvalid.writableBytes_eq
  have hindex : addSize b.writerIndex 1 = Buffer.kCheapPrepend + 1 := by
    rw [← hwriter]
    exact addSize_eq (by omega)
  have htaken : Buffer.Valid { b with writerIndex := Buffer.kCheapPrepend + 1 } := by
    refine ⟨?_, ?_, hvalid.length_le⟩
    · show b.readerIndex ≤ Buffer.kCheapPrepend + 1
      omega
    · show Buffer.kCheapPrepend + 1 ≤ b.buffer.length
      omega
  refine ⟨{ b with writerIndex := Buffer.kCheapPrepend + 1 }, ?_, ?_⟩
  · unfold Buffer.hasWritten
    rw [if_pos hroom, hindex]
  · rw [htaken.toStringView_eq]
    exact congrArg (segment b.buffer · _) hreader

/-- What has been written to the region of the outstanding `READ` after the indices were reset. -/
def strayed (s : PostedRead) (wsabuf : WSABuf) (byte : UInt8) : Buffer :=
  { s.readBuf.retrieveAll with buffer := overwrite s.readBuf.buffer wsabuf.buf [some byte] }

/-- The byte is written behind the one that becomes readable. -/
theorem Refines.strayed (h : Refines s p) {wsabuf : WSABuf} (hposted : s.posted = some wsabuf)
    (hpos : 0 < wsabuf.len) (hreadable : s.readBuf.readableBytes ≠ 0) (byte : UInt8) :
    1 < (s.strayed wsabuf byte).writableBytes ∧
      ∃ b', (s.strayed wsabuf byte).hasWritten 1 = .ok b' ∧
        b'.toStringView = segment s.readBuf.buffer Buffer.kCheapPrepend (Buffer.kCheapPrepend + 1) := by
  obtain ⟨-, -, hcovers⟩ := h.listening hposted
  obtain ⟨hbuf, hlen⟩ := hcovers hpos
  have hwf := h.carries.wellFormed
  have hreader := h.carries.front.reader_ge
  have hwritable := hwf.writableBytes_eq
  have hmax := hwf.length_le
  rw [hwf.readableBytes_eq] at hreadable
  have hsize : (s.strayed wsabuf byte).buffer.length = s.readBuf.buffer.length :=
    length_overwrite (by rw [List.length_singleton]; omega)
  have hvalid : (s.strayed wsabuf byte).Valid := by
    refine ⟨Nat.le_refl _, ?_, ?_⟩
    · show Buffer.kCheapPrepend ≤ (s.strayed wsabuf byte).buffer.length
      omega
    · rw [hsize]
      exact hmax
  have hroom : 1 < (s.strayed wsabuf byte).writableBytes := by
    rw [hvalid.writableBytes_eq, hsize]
    show 1 < s.readBuf.buffer.length - Buffer.kCheapPrepend
    omega
  obtain ⟨b', hdone, hview⟩ := hasWritten_of_reset hvalid rfl rfl (Nat.le_of_lt hroom)
  refine ⟨hroom, b', hdone, ?_⟩
  rw [hview]
  exact segment_overwrite_before (by omega) (by omega)

/-- Where the last bytes are retrieved while one may arrive, it is not the byte that becomes readable. -/
theorem Refines.breaks_of_reset (h : Refines s p) (hlistening : s.Listening)
    (hreadable : s.readBuf.readableBytes ≠ 0) (hall : s.readBuf.readableBytes ≤ n)
    (hretrieve : s.readBuf.retrieve n = .ok s.readBuf.retrieveAll) :
    Machine.Breaks PostedRead.step Intact External (s.retrieve n) := by
  obtain ⟨wsabuf, hposted, hpos⟩ := hlistening
  -- The `READ` delivers a byte other than the one at the place that the reset buffer reads from.
  obtain ⟨byte, hbyte⟩ := exists_ne
    (segment s.readBuf.buffer Buffer.kCheapPrepend (Buffer.kCheapPrepend + 1))
  obtain ⟨hroom, b', hdone, hview⟩ := h.strayed hposted hpos hreadable byte
  have hreset : s.retrieve n =
      { s with
        readBuf := s.readBuf.retrieveAll
        retrieved := s.retrieved ++ s.readBuf.toStringView.take n } := by
    unfold PostedRead.retrieve
    rw [hretrieve]
  have htransfer : ((s.retrieve n).transfer wsabuf [byte]).readBuf = s.strayed wsabuf byte := by
    rw [hreset]
    rfl
  have hread : ((s.retrieve n).transfer wsabuf [byte]).handleRead 1 (.received []) =
      { (s.retrieve n).transfer wsabuf [byte] with readBuf := b' }.messageCallback := by
    unfold PostedRead.handleRead
    rw [htransfer, hdone]
    dsimp only
    rw [if_neg Nat.one_ne_zero, if_neg (Nat.ne_of_lt hroom)]
  have hstep : (s.retrieve n).step (.completion [byte] (.received [])) =
      some ({ (s.retrieve n).transfer wsabuf [byte] with readBuf := b' }.messageCallback) := by
    have hrunning : (s.retrieve n).fault = none := by
      rw [hreset]
      exact h.carries.running
    have hregion : (s.retrieve n).posted = some wsabuf := by
      rw [hreset]
      exact hposted
    unfold PostedRead.step
    rw [if_pos hrunning]
    dsimp only
    rw [hregion]
    dsimp only
    rw [if_pos ⟨hpos, Nat.zero_le _⟩]
    exact congrArg some hread
  refine ⟨[.completion [byte] (.received [])], ?_, fun halways => ?_⟩
  · intro op hop
    obtain rfl := List.mem_singleton.mp hop
    trivial
  · have hbefore := h.inOrder.conserved
    have htake : s.readBuf.toStringView.take n = s.readBuf.toStringView := by
      refine List.take_of_length_le ?_
      rw [h.carries.wellFormed.length_toStringView]
      exact hall
    have hclean : (s.retrieve n).fault = none := by
      rw [hreset]
      exact h.carries.running
    rcases halways.2 _ hstep with hafter | hthrown
    · have hconserved := hafter.conserved
      change (s.retrieve n).retrieved ++ b'.toStringView = ((s.retrieve n).received ++ [byte]).map some
        at hconserved
      rw [hreset] at hconserved
      dsimp only at hconserved
      rw [htake, hbefore, hview, List.map_append] at hconserved
      exact hbyte (List.append_cancel_left hconserved)
    · cases hclean.symm.trans hthrown.thrown

theorem Refines.breaks {op : Op} (h : Refines s p) (hnot : ¬ s.Consumes op) (hs : s.step op = some t) :
    Machine.Breaks PostedRead.step Intact External t := by
  rcases step_cases hs with ⟨_, _, _, rfl, _⟩ | ⟨n, rfl, rfl⟩ | ⟨_, rfl, _⟩
  · exact absurd trivial hnot
  · by_cases hn : n ≤ s.readBuf.readableBytes
    · obtain ⟨hlistening, hlast⟩ : s.Listening ∧
          ¬ (n < s.readBuf.readableBytes ∨ s.readBuf.readableBytes = 0) := by
        by_contra hboth
        exact hnot ⟨hn, fun hl => by_contra fun hlast => hboth ⟨hl, hlast⟩⟩
      obtain ⟨hlt, hreadable⟩ := not_or.mp hlast
      have hretrieve : s.readBuf.retrieve n = .ok s.readBuf.retrieveAll := by
        unfold Buffer.retrieve
        rw [if_pos hn, if_neg hlt]
      exact h.breaks_of_reset hlistening hreadable (Nat.le_of_not_lt hlt) hretrieve
    · have hassert : s.retrieve n = s.fail .assertion := by
        unfold PostedRead.retrieve Buffer.retrieve
        rw [if_neg hn]
      refine Machine.breaks_of_not ?_
      rw [hassert]
      rintro (hinOrder | hthrown)
      · cases hinOrder.running
      · cases hthrown.thrown
  · exact absurd trivial hnot

/-! ## The incoming byte stream -/

theorem carries_fresh : Carries fresh .empty := by
  have hwf : (Buffer.ofSize Buffer.kInitialSize).WellFormed := Buffer.wellFormed_ofSize (by decide)
  exact ⟨rfl, hwf, ⟨Nat.le_refl _, fun _ => rfl⟩, rfl, rfl, Buffer.toStringView_ofSize, Nat.le_refl _⟩

theorem refines_initial (err : Option WSAError) :
    Refines (initial err) .empty ∨ Thrown (initial err) :=
  carries_fresh.postRecv rfl rfl rfl err

/-- What is retrieved is what arrives, in order, and the connection goes on to listen, in a run and however
the system goes on from any state of it, exactly when every retrieval of the run is of what is there, and of
the last bytes only while none may arrive. -/
theorem intact_iff_consumes (err : Option WSAError) (ops : List Op) :
    Machine.Robust step Intact External (initial err) ops ↔
      Machine.Meets step Consumes (initial err) ops := by
  have hinitial : (∃ p, Refines (initial err) p) ∨ Thrown (initial err) :=
    (refines_initial err).imp_left fun h => ⟨_, h⟩
  -- A state in which an exception was thrown has no steps.
  have hstopped : ∀ s op t, Thrown s → s.step op ≠ some t := by
    intro s op t hthrown hs
    cases (running_of_step hs).symm.trans hthrown.thrown
  apply Machine.robust_iff_meets (I := fun s => (∃ p, Refines s p) ∨ Thrown s) _ _ _ _ hinitial
  · rintro s (⟨p, h⟩ | hthrown)
    · exact .inl h.inOrder
    · exact .inr hthrown
  · intro s op hexternal
    cases op with
    | completion _ _ => trivial
    | retrieve _ => cases hexternal
    | postRecv _ => trivial
  · rintro s op t (⟨p, h⟩ | hthrown) hconsumes hs
    · exact h.step hconsumes hs
    · exact absurd hs (hstopped s op t hthrown)
  · rintro s op t (⟨p, h⟩ | hthrown) hnot hs
    · exact h.breaks hnot hs
    · exact absurd hs (hstopped s op t hthrown)

-- The first byte is retrieved after the callback has returned; it becomes readable once more instead of the
-- second one.
example :
    (Machine.run step (initial none)
      [.completion [1] (.received []), .postRecv none, .retrieve 1, .completion [2] (.received [])]).map
        (fun s => (s.received, s.retrieved, s.readBuf.toStringView)) =
      some ([1, 2], [some 1], [some 1]) := by decide +kernel

end PostedRead

end Hulatang
