import Mathlib.Algebra.Ring.Int.Defs
import Mathlib.Tactic.SplitIfs
import Hulatang.Io.SendStream

/-!
# `UnixReactor`

`handleRead` reads into the free space of the receive buffer and, where that is small, into `extrabuf`
behind it, whose bytes are appended afterwards. Over a run of reads and of retrievals by the callback, the
receive buffer refines a `Pipe` (`reads_in_order`).

Both handlers go on behind the branch for an error: `readv` and `write` have returned `-1`, which is
`2^64 - 1` as a size. So an error other than `EAGAIN` ends in a fault, whatever the buffers are
(`unharmed_iff`). An operation that faults keeps what it has done up to there.
-/

namespace Hulatang

/-- An `errno`, with the values of Linux. -/
abbrev Errno := ℕ

def EAGAIN : Errno := 11
def EPIPE : Errno := 32
def ECONNRESET : Errno := 104

/-- How a handler ends that does not return. -/
inductive ReactorFault
  | buffer (fault : Fault)
  /-- An access beyond the end of `extrabuf`. -/
  | outOfBounds
  deriving DecidableEq

/-- What `readv` returns, with the bytes that it has delivered. -/
inductive ReadResult
  | read (bytes : List UInt8)
  | failed (err : Errno)
  deriving DecidableEq

/-- What `write` returns. -/
inductive WriteOutcome
  | wrote (num : ℕ)
  | failed (err : Errno)
  deriving DecidableEq

/-- What the outgoing half of a connection sees of it. -/
def WriteOutcome.result : WriteOutcome → WriteResult
  | .wrote num => .wrote num
  | .failed err => if err = EAGAIN then .again else .error

/-- `sizeof(extrabuf)`. -/
def extraSize : ℕ := 65536

/-- A signed result that is converted to `size_t`. -/
def asSize (n : ℤ) : ℕ := (n % 2^64).toNat

theorem asSize_natCast {n : ℕ} (hn : n < 2^64) : asSize n = n := by
  unfold asSize
  omega

theorem asSize_failed : asSize (-1) = 2^64 - 1 := by decide

/-- `append(data, len)` of a piece of memory, where `len` may lie beyond its end. -/
def Buffer.appendFrom (b : Buffer) (data : List NoInit) (len : ℕ) : Except ReactorFault Buffer := do
  let b ← (b.ensureWritableBytes len).mapError .buffer
  if len ≤ data.length then
    (hasWritten { b with buffer := overwrite b.buffer b.writerIndex (data.take len) } len).mapError .buffer
  else .error .outOfBounds

/-- The model of a connection, and what it has called. -/
structure UnixReactor where
  readBuf : Buffer
  writeBuf : Buffer
  /-- Whether `writeCallback` is set. -/
  hasWriteCallback : Bool
  /-- How often `closeCallback` has been called. -/
  closes : ℕ
  /-- What `errorCallback` has been called with. -/
  errors : List Errno
  /-- How often `messageCallback` has been called. -/
  messages : ℕ
  /-- What `writeCallback` has been called with. -/
  writes : List (List NoInit × ℕ)
  /-- How the last handler has failed, if it has. -/
  fault : Option ReactorFault
  deriving DecidableEq

namespace UnixReactor

def fail (s : UnixReactor) (fault : ReactorFault) : UnixReactor := { s with fault := some fault }

def handleClose (s : UnixReactor) : UnixReactor := { s with closes := s.closes + 1 }

def handleError (s : UnixReactor) (err : Errno) : UnixReactor := { s with errors := s.errors ++ [err] }

def messageCallback (s : UnixReactor) : UnixReactor := { s with messages := s.messages + 1 }

/-- The branch of both handlers for an error that is not `EAGAIN`. -/
def handleFailure (s : UnixReactor) (err : Errno) : UnixReactor :=
  if err = ECONNRESET ∨ err = EPIPE then s.handleClose else (s.handleError err).handleClose

/-- How many bytes the iovecs hold: the free space, and `extrabuf` if that is smaller. -/
def iovTotal (s : UnixReactor) : ℕ :=
  s.readBuf.writableBytes + if s.readBuf.writableBytes < extraSize then extraSize else 0

/-- `readv` has filled the free space of the buffer first. -/
def fillBuffer (s : UnixReactor) (bytes : List UInt8) : UnixReactor :=
  { s with
    readBuf :=
      { s.readBuf with
        buffer := overwrite s.readBuf.buffer s.readBuf.writerIndex
          ((bytes.take s.readBuf.writableBytes).map some) } }

/-- And `extrabuf` with the rest. -/
def extrabuf (s : UnixReactor) (bytes : List UInt8) : List NoInit :=
  let rest := (bytes.drop s.readBuf.writableBytes).map some
  rest ++ List.replicate (extraSize - rest.length) none

/-- The end of `handleRead`: what has been read becomes readable. -/
def commit (s : UnixReactor) (extrabuf : List NoInit) (readNum : ℕ) : UnixReactor :=
  let writable := s.readBuf.writableBytes
  if readNum ≤ writable then
    match s.readBuf.hasWritten readNum with
    | .error fault => s.fail (.buffer fault)
    | .ok readBuf => { s with readBuf := readBuf }.messageCallback
  else
    match s.readBuf.hasWritten writable with
    | .error fault => s.fail (.buffer fault)
    | .ok readBuf =>
      let s := { s with readBuf := readBuf }
      match readBuf.appendFrom extrabuf (subSize readNum writable) with
      | .error fault => s.fail fault
      | .ok readBuf => { s with readBuf := readBuf }.messageCallback

def handleRead (s : UnixReactor) : ReadResult → UnixReactor
  | .failed err =>
    -- Behind the branch `read_num` is still `-1`.
    if err = EAGAIN then s else (s.handleFailure err).commit (s.extrabuf []) (asSize (-1))
  | .read bytes =>
    if bytes.length = 0 then s.handleClose
    else (s.fillBuffer bytes).commit (s.extrabuf bytes) (asSize bytes.length)

/-- `writeBuf->retrieve(num)`. -/
def retrieve (s : UnixReactor) (num : ℕ) : UnixReactor :=
  match s.writeBuf.retrieve num with
  | .error fault => s.fail (.buffer fault)
  | .ok writeBuf => { s with writeBuf := writeBuf }

def handleWrite (s : UnixReactor) : WriteOutcome → UnixReactor
  | .failed err =>
    if err = EAGAIN then s else (s.handleFailure err).retrieve (asSize (-1))
  | .wrote num =>
    let s :=
      if s.hasWriteCallback then { s with writes := s.writes ++ [(s.writeBuf.toStringView, num)] } else s
    s.retrieve (asSize num)

/-! ## Errors -/

/-- The handler has returned from an error and left the buffers as they were; it has called `closeCallback`
as the error requires, and neither of the callbacks for data. -/
structure Unharmed (s s' : UnixReactor) (err : Errno) : Prop where
  returned : s'.fault = none
  readable : s'.readBuf.toStringView = s.readBuf.toStringView ∧
    s'.writeBuf.toStringView = s.writeBuf.toStringView
  wellFormed : s'.readBuf.WellFormed ∧ s'.writeBuf.WellFormed
  quiet : s'.messages = s.messages ∧ s'.writes = s.writes
  closed : s'.closes = s.closes + if err = EAGAIN then 0 else 1

/-- A handler that has been called, with nothing failed and buffers whose indices are in order. -/
structure Sound (s : UnixReactor) : Prop where
  running : s.fault = none
  readBuf : s.readBuf.WellFormed
  writeBuf : s.writeBuf.WellFormed

variable {s : UnixReactor} {err : Errno}

theorem Sound.unharmed (h : Sound s) : Unharmed s s EAGAIN := by
  constructor
  · exact h.running
  · exact ⟨rfl, rfl⟩
  · exact ⟨h.readBuf, h.writeBuf⟩
  · exact ⟨rfl, rfl⟩
  · rfl

theorem handleFailure_readBuf (s : UnixReactor) (err : Errno) :
    (s.handleFailure err).readBuf = s.readBuf ∧ (s.handleFailure err).writeBuf = s.writeBuf := by
  unfold handleFailure
  split_ifs
  · exact ⟨rfl, rfl⟩
  · exact ⟨rfl, rfl⟩

theorem length_extrabuf_nil (s : UnixReactor) : (s.extrabuf []).length = extraSize := by
  simp [extrabuf]

/-- More bytes than `extrabuf` has are never appended from it. -/
theorem appendFrom_fault {b : Buffer} {data : List NoInit} {len : ℕ} (hlen : data.length < len) :
    ∃ fault, b.appendFrom data len = .error fault := by
  unfold Buffer.appendFrom
  cases b.ensureWritableBytes len with
  | error fault => exact ⟨.buffer fault, rfl⟩
  | ok b' =>
    refine ⟨.outOfBounds, ?_⟩
    show (if len ≤ data.length then _ else _) = _
    rw [if_neg (by omega)]

/-- Behind an error the size to be appended is `2^64 - 1` less the free space. -/
theorem fault_handleRead (hs : s.readBuf.WellFormed) (hne : err ≠ EAGAIN) :
    (s.handleRead (.failed err)).fault ≠ none := by
  obtain ⟨hread, -⟩ := handleFailure_readBuf s err
  have hwritable := hs.writableBytes_eq
  have hlength := hs.length_lt
  have hsize : subSize (2^64 - 1) s.readBuf.writableBytes = 2^64 - 1 - s.readBuf.writableBytes :=
    subSize_eq (by omega) (by omega)
  have hbeyond : (s.extrabuf []).length < subSize (2^64 - 1) s.readBuf.writableBytes := by
    rw [length_extrabuf_nil, hsize]
    unfold extraSize
    omega
  have hfailed :
      s.handleRead (.failed err) = (s.handleFailure err).commit (s.extrabuf []) (2^64 - 1) := by
    rw [← asSize_failed]
    exact if_neg hne
  rw [hfailed]
  unfold commit
  rw [hread]
  dsimp only
  rw [if_neg (by omega)]
  cases s.readBuf.hasWritten s.readBuf.writableBytes with
  | error fault => exact Option.some_ne_none _
  | ok readBuf =>
    obtain ⟨fault, hfault⟩ := appendFrom_fault (b := readBuf) hbeyond
    dsimp only
    rw [hfault]
    exact Option.some_ne_none fault

/-- And the size to be retrieved is `2^64 - 1`. -/
theorem fault_handleWrite (hs : Sound s) (hne : err ≠ EAGAIN) :
    (s.handleWrite (.failed err)).fault ≠ none := by
  obtain ⟨-, hwrite⟩ := handleFailure_readBuf s err
  have hreadable := hs.writeBuf.readableBytes_eq
  have hwriter := hs.writeBuf.writer_le
  have hlength := hs.writeBuf.length_lt
  have hassert : s.writeBuf.retrieve (2^64 - 1) = .error .assertion := by
    unfold Buffer.retrieve
    exact if_neg (by omega)
  have hfailed : s.handleWrite (.failed err) = (s.handleFailure err).retrieve (2^64 - 1) := by
    rw [← asSize_failed]
    exact if_neg hne
  rw [hfailed]
  unfold retrieve
  rw [hwrite, hassert]
  exact Option.some_ne_none _

/-- An error leaves the connection unharmed exactly when it is `EAGAIN`. -/
theorem unharmed_iff (s : UnixReactor) (hs : Sound s) (err : Errno) :
    (Unharmed s (s.handleRead (.failed err)) err ↔ err = EAGAIN) ∧
      (Unharmed s (s.handleWrite (.failed err)) err ↔ err = EAGAIN) := by
  constructor
  · constructor
    · intro h
      by_contra hne
      exact fault_handleRead hs.readBuf hne h.returned
    · rintro rfl
      exact hs.unharmed
  · constructor
    · intro h
      by_contra hne
      exact fault_handleWrite hs hne h.returned
    · rintro rfl
      exact hs.unharmed

/-- A buffer with three readable bytes. -/
def threeBytes : Buffer where
  buffer := List.replicate Buffer.kCheapPrepend none ++ [some 1, some 2, some 3, none]
  readerIndex := Buffer.kCheapPrepend
  writerIndex := Buffer.kCheapPrepend + 3

/-- A connection with data in both buffers. -/
def established : UnixReactor where
  readBuf := threeBytes
  writeBuf := threeBytes
  hasWriteCallback := false
  closes := 0
  errors := []
  messages := 0
  writes := []
  fault := none

theorem established_sound : Sound established := by
  have hwf : threeBytes.WellFormed := ⟨by decide, by decide, by decide, by decide⟩
  exact ⟨rfl, hwf, hwf⟩

theorem unharmed_iff_again :
    Sound established ∧ Unharmed established (established.handleRead (.failed EAGAIN)) EAGAIN ∧
      Unharmed established (established.handleWrite (.failed EAGAIN)) EAGAIN := by
  obtain ⟨hread, hwrite⟩ := unharmed_iff established established_sound EAGAIN
  exact ⟨established_sound, hread.mpr rfl, hwrite.mpr rfl⟩

/-- A connection that has been reset. -/
theorem not_unharmed_reset :
    Sound established ∧ ¬ Unharmed established (established.handleRead (.failed ECONNRESET)) ECONNRESET ∧
      ¬ Unharmed established (established.handleWrite (.failed ECONNRESET)) ECONNRESET := by
  refine ⟨established_sound, ?_, ?_⟩
  · intro h
    exact fault_handleRead established_sound.readBuf (by decide) h.returned
  · intro h
    exact fault_handleWrite established_sound (by decide) h.returned

/-! ## The outgoing half -/

/-- On the write buffer the handler does what the outgoing half does on its own. -/
theorem sendBuffer_handleWrite {stream : SendStream} (hbuffer : stream.sendBuffer = s.writeBuf)
    {outcome : WriteOutcome} (hnum : ∀ num, outcome = .wrote num → num < 2^64) :
    (stream.handleWrite outcome.result).sendBuffer = (s.handleWrite outcome).writeBuf := by
  have hretrieve : ∀ (a : SendStream) (b : UnixReactor) (num : ℕ), a.sendBuffer = b.writeBuf →
      (a.retrieve num).sendBuffer = (b.retrieve num).writeBuf := by
    intro a b num hsame
    unfold SendStream.retrieve retrieve
    rw [hsame]
    cases b.writeBuf.retrieve num <;> rfl
  cases outcome with
  | wrote num =>
    have hsize : asSize num = num := asSize_natCast (hnum num rfl)
    unfold handleWrite
    dsimp only
    rw [hsize]
    apply hretrieve
    split_ifs <;> exact hbuffer
  | failed err =>
    unfold handleWrite WriteOutcome.result
    dsimp only
    by_cases hagain : err = EAGAIN
    · rw [if_pos hagain, if_pos hagain]
      exact hbuffer
    · obtain ⟨-, hfailure⟩ := handleFailure_readBuf s err
      rw [if_neg hagain, if_neg hagain, asSize_failed]
      apply hretrieve
      rw [hfailure]
      exact hbuffer

/-! ## Successful reads -/

/-- The bytes become readable behind those that are there, and `messageCallback` is called once; or the
vector would have to be larger than it can be. -/
inductive Reads (s : UnixReactor) (bytes : List UInt8) (s' : UnixReactor) : Prop
  | received (running : s'.fault = none) (wellFormed : s'.readBuf.WellFormed)
      (readable : s'.readBuf.toStringView = s.readBuf.toStringView ++ bytes.map some)
      (called : s'.messages = s.messages + 1)
      (writer : s'.readBuf.writerIndex ≤ s.readBuf.writerIndex + bytes.length)
  | tooLong (thrown : s'.fault = some (.buffer .lengthError))
      (big : maxSize < s.readBuf.writerIndex + bytes.length)

theorem writerIndex_hasWritten {b b' : Buffer} {len : ℕ} (h : b.hasWritten len = .ok b') :
    b'.writerIndex = addSize b.writerIndex len := by
  unfold Buffer.hasWritten at h
  split_ifs at h
  cases h
  rfl

theorem readerIndex_hasWritten {b b' : Buffer} {len : ℕ} (h : b.hasWritten len = .ok b') :
    b'.readerIndex = b.readerIndex := by
  unfold Buffer.hasWritten at h
  split_ifs at h
  cases h
  rfl

/-- Making room moves the readable bytes to the front, if at all. -/
theorem readerIndex_makeSpace_le {b b' : Buffer} {len : ℕ} (h : b.makeSpace len = .ok b') :
    b'.readerIndex ≤ b.readerIndex := by
  unfold Buffer.makeSpace Buffer.resize at h
  split_ifs at h with hgrow hbig hfront
  · cases h
    exact Nat.le_refl _
  · cases h
    exact Nat.le_of_lt hfront.1

theorem readerIndex_ensureWritableBytes_le {b b' : Buffer} {len : ℕ}
    (h : b.ensureWritableBytes len = .ok b') : b'.readerIndex ≤ b.readerIndex := by
  have hassert : ∀ {b₁ : Buffer},
      (if len ≤ b₁.writableBytes then Except.ok b₁ else .error Fault.assertion) = .ok b' → b' = b₁ := by
    intro b₁ h₁
    split_ifs at h₁
    exact (Except.ok.inj h₁).symm
  unfold Buffer.ensureWritableBytes at h
  by_cases hfull : b.writableBytes < len
  · rw [if_pos hfull] at h
    cases hmade : b.makeSpace len with
    | error fault =>
      rw [hmade] at h
      cases h
    | ok b₁ =>
      rw [hmade] at h
      rw [hassert h]
      exact readerIndex_makeSpace_le hmade
  · rw [if_neg hfull] at h
    exact Nat.le_of_eq (congrArg Buffer.readerIndex (hassert h))

/-- A piece of memory is appended, or the vector would be too large. -/
theorem appendFrom_or {b : Buffer} {data : List NoInit} {len : ℕ} (hwf : b.WellFormed)
    (hdata : len ≤ data.length) (hlen : len ≤ maxSize) :
    (∃ b', b.appendFrom data len = .ok b' ∧ b'.WellFormed ∧
        b'.toStringView = b.toStringView ++ data.take len ∧ b'.readerIndex ≤ b.readerIndex) ∨
      b.appendFrom data len = .error (.buffer .lengthError) ∧ maxSize < b.writerIndex + len := by
  unfold Buffer.appendFrom
  rcases hwf.ensureWritableBytes hlen with ⟨b₁, hensured, hwf₁, hview₁, hroom⟩ | ⟨hfault, hbig⟩
  · have htake : (data.take len).length = len := by
      rw [List.length_take]
      omega
    obtain ⟨b', hdone, hwf', hview', -⟩ := hwf₁.written (data.take len) (by omega)
    rw [htake] at hdone
    refine .inl ⟨b', ?_, hwf', ?_, ?_⟩
    · rw [hensured]
      show (if len ≤ data.length then _ else _) = _
      rw [if_pos hdata, hdone]
      rfl
    · rw [hview', hview₁]
    · have hreader := readerIndex_hasWritten hdone
      dsimp only at hreader
      rw [hreader]
      exact readerIndex_ensureWritableBytes_le hensured
  · refine .inr ⟨?_, hbig⟩
    rw [hfault]
    rfl

/-- The writer index of buffers whose readable bytes are given. -/
theorem writerIndex_le {b b' : Buffer} {data : List NoInit} (hwf : b.WellFormed) (hwf' : b'.WellFormed)
    (hview : b'.toStringView = b.toStringView ++ data) (hreader : b'.readerIndex ≤ b.readerIndex) :
    b'.writerIndex ≤ b.writerIndex + data.length := by
  have hlength := congrArg List.length hview
  rw [List.length_append, hwf.length_toStringView, hwf'.length_toStringView, hwf.readableBytes_eq,
    hwf'.readableBytes_eq] at hlength
  have hle := hwf.reader_le
  have hle' := hwf'.reader_le
  omega

/-- `readv` does not move the indices. -/
theorem writableBytes_fillBuffer (hs : s.readBuf.WellFormed) (bytes : List UInt8) :
    (s.fillBuffer bytes).readBuf.writableBytes = s.readBuf.writableBytes := by
  have hwritable := hs.writableBytes_eq
  have hwriter := hs.writer_le
  have hlength : ((bytes.take s.readBuf.writableBytes).map some).length ≤ s.readBuf.writableBytes := by
    rw [List.length_map, List.length_take]
    exact Nat.min_le_left ..
  show subSize (overwrite s.readBuf.buffer s.readBuf.writerIndex _).length s.readBuf.writerIndex = _
  rw [length_overwrite (by omega)]
  rfl

/-- What `extrabuf` has been filled with. -/
theorem take_extrabuf {bytes : List UInt8} (hle : bytes.length ≤ s.iovTotal)
    (hbig : s.readBuf.writableBytes < bytes.length) :
    bytes.length - s.readBuf.writableBytes ≤ (s.extrabuf bytes).length ∧
      (s.extrabuf bytes).take (bytes.length - s.readBuf.writableBytes) =
        (bytes.drop s.readBuf.writableBytes).map some ∧
      bytes.length - s.readBuf.writableBytes ≤ extraSize := by
  have hrest : ((bytes.drop s.readBuf.writableBytes).map (some : UInt8 → NoInit)).length =
      bytes.length - s.readBuf.writableBytes := by rw [List.length_map, List.length_drop]
  unfold iovTotal at hle
  unfold extrabuf
  refine ⟨?_, ?_, ?_⟩
  · rw [List.length_append, hrest]
    omega
  · exact List.take_left' hrest
  · split_ifs at hle <;> omega

/-- What has been read is in the buffer. -/
theorem reads_of_fits (hs : s.readBuf.WellFormed) (hrunning : s.fault = none) {bytes : List UInt8}
    (hfits : bytes.length ≤ s.readBuf.writableBytes) :
    Reads s bytes ((s.fillBuffer bytes).commit (s.extrabuf bytes) bytes.length) := by
  obtain ⟨b', hdone, hwf, hview, -⟩ := hs.written (bytes.map some) (by rw [List.length_map]; exact hfits)
  have hbuffer : (s.fillBuffer bytes).readBuf.hasWritten bytes.length = .ok b' := by
    unfold fillBuffer
    rw [List.take_of_length_le hfits, ← hdone, List.length_map]
  have hreader := readerIndex_hasWritten hdone
  unfold commit
  rw [writableBytes_fillBuffer hs]
  dsimp only
  rw [if_pos hfits, hbuffer]
  refine .received hrunning hwf hview rfl ?_
  rw [← List.length_map (some : UInt8 → NoInit)]
  exact writerIndex_le hs hwf hview (Nat.le_of_eq hreader)

/-- The free space of the buffer has been filled. -/
theorem hasWritten_of_full (hs : s.readBuf.WellFormed) {bytes : List UInt8}
    (hbig : s.readBuf.writableBytes < bytes.length) :
    ∃ b', (s.fillBuffer bytes).readBuf.hasWritten s.readBuf.writableBytes = .ok b' ∧ b'.WellFormed ∧
      b'.toStringView =
        s.readBuf.toStringView ++ (bytes.take s.readBuf.writableBytes).map some ∧
      b'.writerIndex = s.readBuf.writerIndex + s.readBuf.writableBytes ∧
      b'.readerIndex = s.readBuf.readerIndex := by
  have hlength := hs.length_lt
  have hwritable := hs.writableBytes_eq
  have hwriter := hs.writer_le
  have hfull : ((bytes.take s.readBuf.writableBytes).map (some : UInt8 → NoInit)).length =
      s.readBuf.writableBytes := by
    rw [List.length_map, List.length_take]
    omega
  obtain ⟨b', hdone, hwf, hview, -⟩ := hs.written ((bytes.take s.readBuf.writableBytes).map some)
    (Nat.le_of_eq hfull)
  rw [hfull] at hdone
  have hindex := writerIndex_hasWritten hdone
  have hreader := readerIndex_hasWritten hdone
  dsimp only at hindex
  refine ⟨b', hdone, hwf, hview, ?_, hreader⟩
  rw [hindex]
  exact addSize_eq (by omega)

/-- What `extrabuf` holds is appended behind the bytes that fill the buffer. -/
theorem reads_of_full (hs : s.readBuf.WellFormed) (hrunning : s.fault = none) {bytes : List UInt8}
    (hle : bytes.length ≤ s.iovTotal) (hbig : s.readBuf.writableBytes < bytes.length) :
    Reads s bytes ((s.fillBuffer bytes).commit (s.extrabuf bytes) bytes.length) := by
  obtain ⟨hextra, htake, hsmall⟩ := take_extrabuf hle hbig
  obtain ⟨b₁, hbuffer, hwf₁, hview₁, hwriter₁, hreader₁⟩ := hasWritten_of_full hs hbig
  have hlength := hs.length_lt
  have hwritable := hs.writableBytes_eq
  have hrest : subSize bytes.length s.readBuf.writableBytes = bytes.length - s.readBuf.writableBytes := by
    unfold extraSize at hsmall
    exact subSize_eq (by omega) (by omega)
  have hmax : extraSize ≤ maxSize := by decide
  unfold commit
  rw [writableBytes_fillBuffer hs]
  dsimp only
  rw [if_neg (Nat.not_le.mpr hbig), hbuffer, hrest]
  dsimp only
  rcases appendFrom_or hwf₁ hextra (Nat.le_trans hsmall hmax) with
    ⟨b', happend, hwf', hview', hreader⟩ | ⟨hfault, hthrown⟩
  · have hview : b'.toStringView = s.readBuf.toStringView ++ bytes.map some := by
      calc b'.toStringView
          = b₁.toStringView ++ (bytes.drop s.readBuf.writableBytes).map some := by rw [hview', htake]
        _ = s.readBuf.toStringView ++ ((bytes.take s.readBuf.writableBytes).map some ++
              (bytes.drop s.readBuf.writableBytes).map some) := by rw [hview₁, List.append_assoc]
        _ = s.readBuf.toStringView ++ bytes.map some := by rw [← List.map_append, List.take_append_drop]
    rw [happend]
    refine .received hrunning hwf' hview rfl ?_
    rw [← List.length_map (some : UInt8 → NoInit)]
    apply writerIndex_le hs hwf' hview
    exact Nat.le_trans hreader (Nat.le_of_eq hreader₁)
  · rw [hfault]
    refine .tooLong rfl ?_
    rw [hwriter₁] at hthrown
    omega

theorem reads_handleRead (hs : s.readBuf.WellFormed) (hrunning : s.fault = none) {bytes : List UInt8}
    (hpos : bytes ≠ []) (hle : bytes.length ≤ s.iovTotal) : Reads s bytes (s.handleRead (.read bytes)) := by
  have hlength := hs.length_lt
  have hwritable := hs.writableBytes_eq
  have hsize : asSize bytes.length = bytes.length := by
    apply asSize_natCast
    unfold iovTotal extraSize at hle
    split_ifs at hle <;> omega
  have hread : s.handleRead (.read bytes) =
      (s.fillBuffer bytes).commit (s.extrabuf bytes) bytes.length := by
    conv_rhs => rw [← hsize]
    exact if_neg fun h => hpos (List.eq_nil_of_length_eq_zero h)
  rw [hread]
  by_cases hfits : bytes.length ≤ s.readBuf.writableBytes
  · exact reads_of_fits hs hrunning hfits
  · exact reads_of_full hs hrunning hle (by omega)

end UnixReactor

/-! ## The incoming byte stream -/

/-- The receiving half of a connection. -/
structure ReadStream where
  reactor : UnixReactor
  /-- What `readv` has delivered. -/
  received : List UInt8
  /-- What the callback has retrieved. -/
  retrieved : List NoInit
  /-- How often `readv` has delivered something. -/
  reads : ℕ

namespace ReadStream

/-- A connection that has just been established. -/
def initial : ReadStream where
  reactor :=
    { readBuf := .ofSize Buffer.kInitialSize, writeBuf := .ofSize Buffer.kInitialSize,
      hasWriteCallback := false, closes := 0, errors := [], messages := 0, writes := [], fault := none }
  received := []
  retrieved := []
  reads := 0

/-- `retrieve`, called by the callback. -/
def retrieve (s : ReadStream) (n : ℕ) : ReadStream :=
  match s.reactor.readBuf.retrieve n with
  | .error fault => { s with reactor := s.reactor.fail (.buffer fault) }
  | .ok readBuf =>
    { s with
      reactor := { s.reactor with readBuf := readBuf }
      retrieved := s.retrieved ++ s.reactor.readBuf.toStringView.take n }

/-- The steps of a run. -/
inductive Op
  | read (bytes : List UInt8)
  | retrieve (n : ℕ)
  deriving DecidableEq

/-- One step, as long as nothing has failed. `readv` delivers what the iovecs hold at most, and a callback
retrieves what is there at most. -/
def step (s : ReadStream) (op : Op) : Option ReadStream :=
  if s.reactor.fault = none then
    match op with
    | .read bytes =>
      if bytes ≠ [] ∧ bytes.length ≤ s.reactor.iovTotal then
        some { s with
          reactor := s.reactor.handleRead (.read bytes)
          received := s.received ++ bytes
          reads := s.reads + 1 }
      else none
    | .retrieve n => if n ≤ s.reactor.readBuf.readableBytes then some (s.retrieve n) else none
  else none

/-- The bytes that have been retrieved, and then those that are readable, are those that have been received,
and `messageCallback` has been called once for each read. -/
structure InOrder (s : ReadStream) : Prop where
  running : s.reactor.fault = none
  conserved : s.retrieved ++ s.reactor.readBuf.toStringView = s.received.map some
  called : s.reactor.messages = s.reads

/-- The connection implements the pipe. -/
structure Refines (s : ReadStream) (p : Pipe UInt8) : Prop where
  running : s.reactor.fault = none
  wellFormed : s.reactor.readBuf.WellFormed
  accepted : s.received = p.accepted
  delivered : s.retrieved = p.delivered.map some
  queued : s.reactor.readBuf.toStringView = p.queued.map some
  called : s.reactor.messages = s.reads
  writer : s.reactor.readBuf.writerIndex ≤ Buffer.kCheapPrepend + s.received.length

/-- An exception of `std::vector` has left the handler. All that has been received would not fit an object. -/
structure Thrown (s : ReadStream) : Prop where
  thrown : s.reactor.fault = some (.buffer .lengthError)
  big : maxSize < Buffer.kCheapPrepend + s.received.length

theorem refines_initial : Refines initial .empty := by
  have hwf : (Buffer.ofSize Buffer.kInitialSize).WellFormed := Buffer.wellFormed_ofSize (by decide)
  exact ⟨rfl, hwf, rfl, rfl, Buffer.toStringView_ofSize, rfl, Nat.le_refl _⟩

variable {s s' : ReadStream} {p : Pipe UInt8} {bytes : List UInt8} {op : Op}

theorem Refines.inOrder (h : Refines s p) : InOrder s := by
  refine ⟨h.running, ?_, h.called⟩
  rw [h.delivered, h.queued, h.accepted, ← List.map_append, p.conserved]

/-- A step is enabled only while nothing has failed. -/
theorem running_of_step (hs : s.step op = some s') : s.reactor.fault = none := by
  by_contra hne
  unfold step at hs
  rw [if_neg hne] at hs
  cases hs

theorem step_read (hs : s.step (.read bytes) = some s') :
    bytes ≠ [] ∧ bytes.length ≤ s.reactor.iovTotal ∧
      s' = { s with
        reactor := s.reactor.handleRead (.read bytes)
        received := s.received ++ bytes
        reads := s.reads + 1 } := by
  have hrunning := running_of_step hs
  unfold step at hs
  rw [if_pos hrunning] at hs
  dsimp only at hs
  split_ifs at hs with henabled
  exact ⟨henabled.1, henabled.2, (Option.some.inj hs).symm⟩

/-- A retrieval receives nothing, and fails nothing. -/
theorem step_retrieve {n : ℕ} (h : s.reactor.readBuf.WellFormed) (hs : s.step (.retrieve n) = some s') :
    s'.received = s.received ∧ s'.reactor.fault = none := by
  have hrunning := running_of_step hs
  unfold step at hs
  rw [if_pos hrunning] at hs
  dsimp only at hs
  split_ifs at hs with hn
  cases hs
  obtain ⟨readBuf, hretrieve, -, -⟩ := h.retrieve hn
  unfold ReadStream.retrieve
  rw [hretrieve]
  exact ⟨rfl, hrunning⟩

/-- A read pushes the bytes. -/
theorem Refines.read (h : Refines s p) (hs : s.step (.read bytes) = some s') :
    Refines s' (p.push bytes) ∨ Thrown s' := by
  obtain ⟨hpos, hle, rfl⟩ := step_read hs
  have hwriter := h.writer
  have hlength : (s.received ++ bytes).length = s.received.length + bytes.length := List.length_append
  cases UnixReactor.reads_handleRead h.wellFormed h.running hpos hle with
  | received hrunning hwf hview hcalled hmoved =>
    refine .inl ⟨hrunning, hwf, ?_, h.delivered, ?_, ?_, ?_⟩
    · show s.received ++ bytes = _
      rw [h.accepted]
      rfl
    · rw [hview, h.queued]
      exact List.map_append.symm
    · rw [hcalled, h.called]
    · show (s.reactor.handleRead (.read bytes)).readBuf.writerIndex ≤ _
      rw [hlength]
      omega
  | tooLong hthrown hbig =>
    refine .inr ⟨hthrown, ?_⟩
    rw [hlength]
    omega

/-- A retrieval pops what it asks for. -/
theorem Refines.retrieve (h : Refines s p) {n : ℕ} (hn : n ≤ s.reactor.readBuf.readableBytes) :
    Refines (s.retrieve n) (p.pop n) := by
  obtain ⟨readBuf, hretrieve, hwf, hview⟩ := h.wellFormed.retrieve hn
  unfold ReadStream.retrieve
  rw [hretrieve]
  refine ⟨h.running, hwf, h.accepted, ?_, ?_, h.called, ?_⟩
  · show s.retrieved ++ s.reactor.readBuf.toStringView.take n = (p.delivered ++ p.queued.take n).map some
    rw [h.delivered, h.queued, List.map_append, List.map_take]
  · show readBuf.toStringView = (p.queued.drop n).map some
    rw [hview, h.queued, List.map_drop]
  · have hwriter := h.writer
    have hreset : readBuf.writerIndex = s.reactor.readBuf.writerIndex ∨
        readBuf.writerIndex = Buffer.kCheapPrepend := by
      unfold Buffer.retrieve at hretrieve
      split_ifs at hretrieve <;> cases hretrieve
      · exact .inl rfl
      · exact .inr rfl
    show readBuf.writerIndex ≤ Buffer.kCheapPrepend + s.received.length
    omega

theorem Refines.step (h : Refines s p) (hs : s.step op = some s') :
    (∃ p', Refines s' p') ∨ Thrown s' := by
  cases op with
  | read bytes =>
    rcases h.read hs with hnext | hthrown
    · exact .inl ⟨_, hnext⟩
    · exact .inr hthrown
  | retrieve n =>
    unfold ReadStream.step at hs
    rw [if_pos h.running] at hs
    dsimp only at hs
    split_ifs at hs with hn
    cases hs
    exact .inl ⟨_, h.retrieve hn⟩

/-- In every run the bytes arrive in order, or the vector would have to be larger than it can be; and every
read of a run appends what it has read, and calls `messageCallback` once. -/
theorem reads_in_order (ops : List Op) (s : ReadStream) (hrun : Machine.run step initial ops = some s) :
    (InOrder s ∨ Thrown s) ∧
      ∀ bytes s', s.step (.read bytes) = some s' → UnixReactor.Reads s.reactor bytes s'.reactor := by
  have hinvariant : (∃ p, Refines s p) ∨ Thrown s := by
    have hinitial : (∃ p, Refines initial p) ∨ Thrown initial := .inl ⟨_, refines_initial⟩
    apply Machine.run_invariant (I := fun s => (∃ p, Refines s p) ∨ Thrown s) _ hinitial hrun
    rintro t op t' (⟨p, ht⟩ | hthrown) hs
    · exact ht.step hs
    · have hfault := hthrown.thrown
      rw [running_of_step hs] at hfault
      cases hfault
  constructor
  · exact hinvariant.imp_left fun ⟨p, h⟩ => h.inOrder
  · intro bytes s' hs
    obtain ⟨hpos, hle, rfl⟩ := step_read hs
    rcases hinvariant with ⟨p, h⟩ | hthrown
    · exact UnixReactor.reads_handleRead h.wellFormed h.running hpos hle
    · have hfault := hthrown.thrown
      rw [running_of_step hs] at hfault
      cases hfault

/-- Two reads around a retrieval. -/
def readTwice : List Op := [.read [1, 2, 3], .retrieve 2, .read [4]]

theorem reads_in_order_twice :
    ∃ s, Machine.run step initial readTwice = some s ∧ (InOrder s ∨ Thrown s) ∧
      ∀ bytes s', s.step (.read bytes) = some s' → UnixReactor.Reads s.reactor bytes s'.reactor := by
  have hruns : (Machine.run step initial readTwice).isSome = true := by decide +kernel
  obtain ⟨s, hs⟩ := Option.isSome_iff_exists.mp hruns
  exact ⟨s, hs, reads_in_order readTwice s hs⟩

end ReadStream

end Hulatang
