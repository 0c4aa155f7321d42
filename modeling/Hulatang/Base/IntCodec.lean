import Mathlib.Tactic.IntervalCases
import Hulatang.Base.MovedFrom
import Hulatang.Lib.ByteOrder
import Hulatang.Lib.Fallible

/-!
# Integers in a buffer

`BufferEndian<endian>` writes signed integers of four widths in the order of its template parameter: an
integer goes through `bit_endian`, which swaps its bytes where the machine has the other order, and then its
bytes in memory are appended, or put in front. This is right for every width and order (`bytes_bitEndian`).

The functions that read have the call `std::copy(&be64, peek(), sizeof be64)`, with the arguments of a
`memcpy`. No `std::copy` has a first and a last iterator of different types, so a program that calls one of
them is ill-formed. That of the width 8 reads its byte itself, and is the only one that there is
(`codec_iff`).
-/

namespace Hulatang

/-- The signed integers that are written. -/
inductive IntWidth
  | int8
  | int16
  | int32
  | int64
  deriving DecidableEq

namespace IntWidth

def bits : IntWidth → ℕ
  | int8 => 8
  | int16 => 16
  | int32 => 32
  | int64 => 64

/-- `sizeof`. -/
def size : IntWidth → ℕ
  | int8 => 1
  | int16 => 2
  | int32 => 4
  | int64 => 8

theorem size_pos (w : IntWidth) : 0 < w.size := by
  cases w <;> decide

end IntWidth

/-! ## `bit_endian` -/

/-- The swap of 64 bits. All operands but the last are signed, and the last mask is unsigned. -/
def swap64 (i : BitVec 64) : BitVec 64 :=
  (i &&& 0x00000000000000FF) <<< 56 ||| (i &&& 0x000000000000FF00) <<< 40 |||
    (i &&& 0x0000000000FF0000) <<< 24 ||| (i &&& 0x00000000FF000000) <<< 8 |||
    (i &&& 0x000000FF00000000).sshiftRight 8 ||| (i &&& 0x0000FF0000000000).sshiftRight 24 |||
    (i &&& 0x00FF000000000000).sshiftRight 40 ||| (i &&& 0xFF00000000000000) >>> 56

/-- That of 32 bits, whose last mask is unsigned. -/
def swap32 (i : BitVec 32) : BitVec 32 :=
  (i &&& 0x000000FF) <<< 24 ||| (i &&& 0x0000FF00) <<< 8 ||| (i &&& 0x00FF0000).sshiftRight 8 |||
    (i &&& 0xFF000000) >>> 24

/-- That of 16 bits, in an `int`. -/
def swap16 (i : BitVec 16) : BitVec 16 :=
  let j := i.signExtend 32
  ((j &&& 0x00FF) <<< 8 ||| (j &&& 0xFF00).sshiftRight 8).truncate 16

/-- `bit_endian`. -/
def bitEndian (native endian : Endian) : (w : IntWidth) → BitVec w.bits → BitVec w.bits
  | .int64, i => if native ≠ endian then swap64 i else i
  | .int32, i => if native ≠ endian then swap32 i else i
  | .int16, i => if native ≠ endian then swap16 i else i
  | .int8, i => i

/-- A mask without the sign bit leaves nothing negative, whose shift to the right would bring in ones. -/
theorem sshiftRight_and {n : ℕ} (i : BitVec n) {mask : BitVec n} (hmask : mask.msb = false) (shift : ℕ) :
    (i &&& mask).sshiftRight shift = (i &&& mask) >>> shift := by
  refine BitVec.sshiftRight_eq_of_msb_false ?_
  rw [BitVec.msb_and, hmask, Bool.and_false]

theorem byteAt_swap64 (i : BitVec 64) : ∀ k < 8, byteAt (swap64 i) k = byteAt i (8 - 1 - k) := by
  intro k hk
  unfold byteAt swap64
  rw [sshiftRight_and i rfl, sshiftRight_and i rfl, sshiftRight_and i rfl]
  -- Each bit of each byte is one of the word, which one mask lets through.
  congr 1
  ext bit hbit
  interval_cases k <;> interval_cases bit <;> simp

theorem byteAt_swap32 (i : BitVec 32) : ∀ k < 4, byteAt (swap32 i) k = byteAt i (4 - 1 - k) := by
  intro k hk
  unfold byteAt swap32
  rw [sshiftRight_and i rfl]
  congr 1
  ext bit hbit
  interval_cases k <;> interval_cases bit <;> simp

theorem byteAt_swap16 (i : BitVec 16) : ∀ k < 2, byteAt (swap16 i) k = byteAt i (2 - 1 - k) := by
  intro k hk
  unfold byteAt swap16
  dsimp only
  rw [sshiftRight_and (i.signExtend 32) rfl]
  congr 1
  ext bit hbit
  interval_cases k <;> interval_cases bit <;> simp [BitVec.getElem_signExtend]

/-- What is in memory after `bit_endian` is in the order that was asked for. -/
theorem bytes_bitEndian (native endian : Endian) (w : IntWidth) (x : BitVec w.bits) :
    native.bytes w.size (bitEndian native endian w x) = endian.bytes w.size x := by
  by_cases hsame : native = endian
  · have hid : bitEndian native endian w x = x := by
      cases w with
      | int8 => rfl
      | int16 | int32 | int64 => exact if_neg (not_not.mpr hsame)
    rw [hid, hsame]
  · have hswapped : ∀ k < w.size, byteAt (bitEndian native endian w x) k = byteAt x (w.size - 1 - k) := by
      cases w with
      | int8 =>
        intro k hk
        have hzero : k = 0 := Nat.lt_one_iff.mp hk
        rw [hzero]
        rfl
      | int16 =>
        have hswap : bitEndian native endian .int16 x = swap16 x := if_pos hsame
        rw [hswap]
        exact byteAt_swap16 x
      | int32 =>
        have hswap : bitEndian native endian .int32 x = swap32 x := if_pos hsame
        rw [hswap]
        exact byteAt_swap32 x
      | int64 =>
        have hswap : bitEndian native endian .int64 x = swap64 x := if_pos hsame
        rw [hswap]
        exact byteAt_swap64 x
    rw [Endian.bytes_of_reversed hswapped, Endian.eq_other_of_ne hsame]

/-! ## The buffer -/

/-- How an operation on integers ends that does not return. -/
inductive CodecFault
  | buffer (fault : Fault)
  /-- No function matches a call, so the program that makes it is ill-formed. -/
  | noMatchingFunction
  /-- A byte is read that has not been written. -/
  | notWritten
  deriving DecidableEq

/-- The types of the pointers that `std::copy` is called with. -/
inductive PointerType
  | constChar
  | int (w : IntWidth)
  deriving DecidableEq

/-- The call `std::copy(first, last, d_first)`, whose template has one type for `first` and `last`. -/
def stdCopy (first last : PointerType) : Except CodecFault Unit :=
  if first = last then .ok () else .error .noMatchingFunction

namespace Buffer

variable (native endian : Endian)

/-- `appendInt64`, and for the other widths. -/
def appendInt (w : IntWidth) (x : BitVec w.bits) (b : Buffer) : Except Fault Buffer :=
  b.append (native.bytes w.size (bitEndian native endian w x))

def appendInt64 (x : BitVec 64) (b : Buffer) : Except Fault Buffer := appendInt native endian .int64 x b
def appendInt32 (x : BitVec 32) (b : Buffer) : Except Fault Buffer := appendInt native endian .int32 x b
def appendInt16 (x : BitVec 16) (b : Buffer) : Except Fault Buffer := appendInt native endian .int16 x b
def appendInt8 (x : BitVec 8) (b : Buffer) : Except Fault Buffer := appendInt native endian .int8 x b

/-- `prependInt64`, and for the other widths. -/
def prependInt (w : IntWidth) (x : BitVec w.bits) (b : Buffer) : Except Fault Buffer :=
  b.prepend (native.bytes w.size (bitEndian native endian w x))

def prependInt64 (x : BitVec 64) (b : Buffer) : Except Fault Buffer := prependInt native endian .int64 x b
def prependInt32 (x : BitVec 32) (b : Buffer) : Except Fault Buffer := prependInt native endian .int32 x b
def prependInt16 (x : BitVec 16) (b : Buffer) : Except Fault Buffer := prependInt native endian .int16 x b
def prependInt8 (x : BitVec 8) (b : Buffer) : Except Fault Buffer := prependInt native endian .int8 x b

/-- The body that `peekInt64`, `peekInt32` and `peekInt16` have. -/
def peekCopied (w : IntWidth) (b : Buffer) : Except CodecFault (BitVec w.bits) :=
  if w.size ≤ b.readableBytes then do
    let be := 0
    -- The copy would begin at `&be`, and end at `peek()`.
    stdCopy (.int w) .constChar
    return bitEndian native endian w be
  else .error (.buffer .assertion)

def peekInt64 (b : Buffer) : Except CodecFault (BitVec 64) := peekCopied native endian .int64 b
def peekInt32 (b : Buffer) : Except CodecFault (BitVec 32) := peekCopied native endian .int32 b
def peekInt16 (b : Buffer) : Except CodecFault (BitVec 16) := peekCopied native endian .int16 b

def peekInt8 (b : Buffer) : Except CodecFault (BitVec 8) :=
  if 1 ≤ b.readableBytes then
    match b.buffer[b.readerIndex]? with
    | some (some c) => .ok c.toBitVec
    | _ => .error .notWritten
  else .error (.buffer .assertion)

def peekInt : (w : IntWidth) → Buffer → Except CodecFault (BitVec w.bits)
  | .int64, b => peekInt64 native endian b
  | .int32, b => peekInt32 native endian b
  | .int16, b => peekInt16 native endian b
  | .int8, b => peekInt8 b

/-- `readInt64`, and for the other widths: `peekInt64`, and `retrieveInt64`. -/
def readInt (w : IntWidth) (b : Buffer) : Except CodecFault (BitVec w.bits × Buffer) := do
  let result ← peekInt native endian w b
  let b ← (b.retrieve w.size).mapError CodecFault.buffer
  return (result, b)

def readInt64 (b : Buffer) : Except CodecFault (BitVec 64 × Buffer) := readInt native endian .int64 b
def readInt32 (b : Buffer) : Except CodecFault (BitVec 32 × Buffer) := readInt native endian .int32 b
def readInt16 (b : Buffer) : Except CodecFault (BitVec 16 × Buffer) := readInt native endian .int16 b
def readInt8 (b : Buffer) : Except CodecFault (BitVec 8 × Buffer) := readInt native endian .int8 b

/-- Integers appended one after the other. -/
def appendInts (xs : List ((w : IntWidth) × BitVec w.bits)) (b : Buffer) : Except Fault Buffer :=
  xs.foldlM (fun b x => appendInt native endian x.1 x.2 b) b

/-- Integers of the widths read one after the other. -/
def readInts : List IntWidth → Buffer → Except CodecFault (List ((w : IntWidth) × BitVec w.bits) × Buffer)
  | [], b => return ([], b)
  | w :: ws, b => do
    let (x, b) ← readInt native endian w b
    let (xs, b) ← readInts ws b
    return (⟨w, x⟩ :: xs, b)

/-- The integer is read, and leaves the rest. -/
structure ReadsBack (w : IntWidth) (x : BitVec w.bits) (b : Buffer) (rest : List NoInit) : Prop where
  peeks : peekInt native endian w b = .ok x
  reads : ∃ b', readInt native endian w b = .ok (x, b') ∧ b'.toStringView = rest

/-- What a sequence of integers is in a buffer. -/
def encoded (xs : List ((w : IntWidth) × BitVec w.bits)) : List NoInit :=
  xs.flatMap fun x => (endian.bytes x.1.size x.2).map some

variable {native endian} {b : Buffer} {w : IntWidth} {x : BitVec w.bits} {rest : List NoInit}

/-- No function that reads more than a byte can be called. -/
theorem peekInt_ne_ok (hw : w ≠ .int8) : peekInt native endian w b ≠ .ok x := by
  have hcopied : ∀ w (x : BitVec w.bits), peekCopied native endian w b ≠ .ok x := by
    intro w x
    unfold peekCopied
    split_ifs
    · exact nofun
    · exact nofun
  cases w with
  | int8 => exact absurd rfl hw
  | int16 | int32 | int64 => exact hcopied _ x

theorem eq_nil_of_encoded {xs : List ((w : IntWidth) × BitVec w.bits)} (h : encoded endian xs = []) :
    xs = [] := by
  cases xs with
  | nil => rfl
  | cons x xs =>
    have hfirst : (endian.bytes x.1.size x.2).map some = [] := (List.append_eq_nil_iff.mp h).1
    have hlength : x.1.size = 0 := by
      rw [← Endian.length_bytes endian x.1.size x.2, List.map_eq_nil_iff.mp hfirst, List.length_nil]
    exact absurd hlength (Nat.ne_of_gt x.1.size_pos)

/-- What is read has been peeked at. -/
theorem peekInt_of_readInt {b' : Buffer} (h : readInt native endian w b = .ok (x, b')) :
    peekInt native endian w b = .ok x := by
  obtain ⟨y, hpeek, hrest⟩ := bind_eq_ok h
  obtain ⟨b₁, -, hreturn⟩ := bind_eq_ok hrest
  cases hreturn
  exact hpeek

/-- A sequence of integers is not read further than to the first that has more than a byte. -/
theorem int8_of_readInts : ∀ (ws : List IntWidth) (b : Buffer) {result},
    readInts native endian ws b = .ok result → ∀ w ∈ ws, w = .int8
  | [], _, _, _, _, hw => absurd hw List.not_mem_nil
  | w :: ws, b, _, hread, w', hw' => by
    obtain ⟨⟨x, b₁⟩, hfirst, hrest⟩ := bind_eq_ok hread
    obtain ⟨_, htail, -⟩ := bind_eq_ok hrest
    rcases List.mem_cons.mp hw' with rfl | hw'
    · by_contra hw
      exact peekInt_ne_ok hw (peekInt_of_readInt hfirst)
    · exact int8_of_readInts ws b₁ htail w' hw'

namespace Valid

/-- The first of the readable bytes is at the reader index. -/
theorem getElem_readerIndex (h : Valid b) {c : NoInit} (hview : b.toStringView = c :: rest) :
    b.buffer[b.readerIndex]? = some c := by
  have hlength := h.length_toStringView
  rw [hview, List.length_cons, h.readableBytes_eq] at hlength
  have hfirst : (b.toStringView)[0]? = some c := by
    rw [hview]
    rfl
  rw [h.toStringView_eq] at hfirst
  unfold segment at hfirst
  rwa [List.getElem?_drop, List.getElem?_take_of_lt (by omega), Nat.add_zero] at hfirst

/-- One byte is retrieved; the buffer stays valid unless it is emptied. -/
theorem retrieve_one (h : Valid b) {c : NoInit} (hview : b.toStringView = c :: rest) :
    ∃ b', b.retrieve 1 = .ok b' ∧ b'.toStringView = rest ∧ (rest ≠ [] → Valid b') := by
  have hreadable : b.readableBytes = rest.length + 1 := by
    rw [← h.length_toStringView, hview, List.length_cons]
  by_cases hrest : rest = []
  · refine ⟨b.retrieveAll, ?_, ?_, fun hne => absurd hrest hne⟩
    · rw [hrest, List.length_nil] at hreadable
      unfold Buffer.retrieve
      rw [hreadable]
      rfl
    · rw [hrest]
      exact toStringView_retrieveAll
  · have hpos := List.length_pos_iff.mpr hrest
    obtain ⟨b', hretrieve, hkept, hdrop⟩ := h.retrieve (n := 1) (by omega) (.inl (by omega))
    refine ⟨b', hretrieve, ?_, fun _ => hkept.valid⟩
    rw [hdrop, hview]
    rfl

/-- Those of one byte read the byte. -/
theorem readInt_int8 (native : Endian) (h : Valid b) {x : BitVec 8}
    (hview : b.toStringView = (endian.bytes 1 x).map some ++ rest) :
    peekInt native endian .int8 b = .ok x ∧
      ∃ b', readInt native endian .int8 b = .ok (x, b') ∧ b'.toStringView = rest ∧
        (rest ≠ [] → Valid b') := by
  have hbyte : (byteAt x 0).toBitVec = x := by
    show x.extractLsb' 0 8 = x
    exact BitVec.extractLsb'_eq_self
  have hfirst : b.toStringView = some (byteAt x 0) :: rest := by
    cases endian with
    | little => exact hview
    | big => exact hview
  have hreadable : b.readableBytes = rest.length + 1 := by
    rw [← h.length_toStringView, hfirst, List.length_cons]
  have hpeek : peekInt native endian .int8 b = .ok x := by
    show peekInt8 b = .ok x
    unfold peekInt8
    rw [if_pos (by omega), h.getElem_readerIndex hfirst]
    exact congrArg Except.ok hbyte
  obtain ⟨b', hretrieve, hrest⟩ := h.retrieve_one hfirst
  refine ⟨hpeek, b', ?_, hrest⟩
  unfold readInt
  rw [bind_of_eq_ok hpeek]
  exact bind_of_eq_ok (congrArg (Except.mapError CodecFault.buffer) hretrieve) _

/-- An integer at the front of a buffer is read back if it is one of a byte. -/
theorem readsBack_iff (h : Valid b) (hview : b.toStringView = (endian.bytes w.size x).map some ++ rest) :
    ReadsBack native endian w x b rest ↔ w = .int8 := by
  constructor
  · intro hreads
    by_contra hw
    exact peekInt_ne_ok hw hreads.peeks
  · rintro rfl
    obtain ⟨hpeek, b', hread, hrest, -⟩ := h.readInt_int8 native hview
    exact ⟨hpeek, b', hread, hrest⟩

/-- Bytes at the front of a buffer are read back in order. -/
theorem readInts_of_int8 : ∀ (xs : List ((w : IntWidth) × BitVec w.bits)) (b : Buffer), (xs ≠ [] → Valid b) →
    (∀ x ∈ xs, x.1 = .int8) → b.toStringView = encoded endian xs ++ rest →
    ∃ b', readInts native endian (xs.map Sigma.fst) b = .ok (xs, b') ∧ b'.toStringView = rest
  | [], b, _, _, hview => ⟨b, rfl, hview⟩
  | ⟨w, x⟩ :: xs, b, hvalid, hint8, hview => by
    obtain rfl : w = .int8 := hint8 _ List.mem_cons_self
    have hfront : b.toStringView = (endian.bytes 1 x).map some ++ (encoded endian xs ++ rest) := by
      rw [hview, ← List.append_assoc]
      rfl
    obtain ⟨-, b₁, hread, hrest, hvalid₁⟩ :=
      (hvalid (List.cons_ne_nil _ _)).readInt_int8 native hfront
    -- The last integer empties the buffer, which may have no place for its indices.
    have hnext : xs ≠ [] → Valid b₁ := by
      intro hne
      refine hvalid₁ fun hnil => hne ?_
      exact eq_nil_of_encoded (List.append_eq_nil_iff.mp hnil).1
    obtain ⟨b', hreads, hend⟩ :=
      readInts_of_int8 xs b₁ hnext (fun y hy => hint8 y (List.mem_cons_of_mem _ hy)) hrest
    refine ⟨b', ?_, hend⟩
    exact (bind_of_eq_ok hread _).trans (bind_of_eq_ok hreads _)

/-- An append to a buffer without readable bytes always fits. -/
theorem appendInt_of_empty (native endian : Endian) (h : Valid b) (hempty : b.toStringView = [])
    (w : IntWidth) (x : BitVec w.bits) :
    ∃ b', appendInt native endian w x b = .ok b' ∧ Valid b' ∧
      b'.toStringView = (endian.bytes w.size x).map some := by
  have hreadable : b.writerIndex - b.readerIndex = 0 := by
    rw [← h.readableBytes_eq, ← h.length_toStringView, hempty, List.length_nil]
  have hlength : ((endian.bytes w.size x).map some).length = w.size := by
    rw [List.length_map, Endian.length_bytes]
  have hsize : w.size ≤ 8 := by cases w <;> decide
  -- If the vector cannot grow, then the reader index is far behind.
  have hfits : b.Fits w.size := by
    have hreader := h.reader_le
    unfold Fits maxSize kCheapPrepend
    omega
  unfold appendInt
  rw [bytes_bitEndian, append_eq]
  have hmax : ((endian.bytes w.size x).map some).length ≤ maxSize := by
    rw [hlength]
    exact Nat.le_trans hsize (by decide)
  rcases h.appendView hmax with ⟨b', hdone, hkept, hview⟩ | ⟨-, hnot⟩
  · rw [hempty, List.nil_append] at hview
    exact ⟨b', hdone, hkept.valid, hview⟩
  · rw [hlength] at hnot
    exact absurd hfits hnot

/-- What an append that does not throw leaves. -/
theorem appendInt_ok (h : Valid b) {b' : Buffer} (happend : appendInt native endian w x b = .ok b') :
    Valid b' ∧ b'.toStringView = b.toStringView ++ (endian.bytes w.size x).map some := by
  have hsize : w.size ≤ maxSize := by cases w <;> decide
  unfold appendInt at happend
  rw [bytes_bitEndian] at happend
  have hlen : (endian.bytes w.size x).length ≤ maxSize := by
    rw [Endian.length_bytes]
    exact hsize
  rcases h.append hlen with ⟨b₁, hdone, hkept, hview⟩ | hfault
  · obtain rfl : b₁ = b' := Except.ok.inj (hdone.symm.trans happend)
    exact ⟨hkept.valid, hview⟩
  · cases hfault.symm.trans happend

/-- Integers that are appended stand in order behind what is there. -/
theorem appendInts_ok : ∀ (xs : List ((w : IntWidth) × BitVec w.bits)) {b : Buffer} (_ : Valid b)
    {b' : Buffer}, appendInts native endian xs b = .ok b' →
      Valid b' ∧ b'.toStringView = b.toStringView ++ encoded endian xs
  | [], _, h, _, happend => by
    cases happend
    exact ⟨h, (List.append_nil _).symm⟩
  | x :: xs, b, h, b', happend => by
    obtain ⟨b₁, hfirst, hrest⟩ := bind_eq_ok happend
    obtain ⟨hvalid₁, hview₁⟩ := h.appendInt_ok hfirst
    obtain ⟨hvalid, hview⟩ := appendInts_ok xs hvalid₁ hrest
    refine ⟨hvalid, ?_⟩
    rw [hview, hview₁, List.append_assoc]
    rfl

/-- Integers that have been appended to a buffer without readable bytes are read back if they are all of a
byte. -/
theorem readInts_iff (h : Valid b) (hempty : b.toStringView = [])
    {xs : List ((w : IntWidth) × BitVec w.bits)} {b' : Buffer}
    (happend : appendInts native endian xs b = .ok b') :
    (∃ b'', readInts native endian (xs.map Sigma.fst) b' = .ok (xs, b'') ∧ b''.toStringView = []) ↔
      ∀ x ∈ xs, x.1 = .int8 := by
  obtain ⟨hvalid, hview⟩ := h.appendInts_ok xs happend
  constructor
  · rintro ⟨b'', hread, -⟩ x hx
    exact int8_of_readInts _ b' hread x.1 (List.mem_map_of_mem hx)
  · intro hint8
    refine readInts_of_int8 xs b' (fun _ => hvalid) hint8 ?_
    rw [hview, hempty, List.nil_append, List.append_nil]

/-- What is put in front is read first. -/
theorem prependInt (h : Valid b) (hroom : w.size ≤ b.prependableBytes) :
    ∃ b', Buffer.prependInt native endian w x b = .ok b' ∧ Valid b' ∧
      b'.toStringView = (endian.bytes w.size x).map some ++ b.toStringView := by
  have hlength : (endian.bytes w.size x).length ≤ b.prependableBytes := by
    rw [Endian.length_bytes]
    exact hroom
  unfold Buffer.prependInt
  rw [bytes_bitEndian]
  obtain ⟨b', hdone, hkept, hview⟩ := h.prepend hlength
  exact ⟨b', hdone, hkept.valid, hview⟩

end Valid

end Buffer

namespace MovedPool

variable {ι : Type*} [DecidableEq ι]

/-- In every state that buffers reach, unless one is emptied that has no place for its indices: an integer
that is appended to a buffer without readable bytes, or put in front of what there is, stands there in its
order of bytes, and is read back exactly if it is one of a byte; and integers that are appended stand there
one after the other, and are read back exactly if they all are. -/
theorem codec_iff (sizes : ι → ℕ) (hsizes : ∀ i, Buffer.kCheapPrepend + sizes i ≤ maxSize) (ops : List (Op ι))
    (hplaces : Machine.Meets step FindsPlace (initial sizes) ops) (s : MovedPool ι)
    (hr : Machine.run step (initial sizes) ops = some s) (i : ι) (native endian : Endian) :
    ((s.pool.buffers i).toStringView = [] → ∀ (w : IntWidth) (x : BitVec w.bits),
      ∃ b, (s.pool.buffers i).appendInt native endian w x = .ok b ∧
        b.toStringView = (endian.bytes w.size x).map some ∧
        (b.ReadsBack native endian w x [] ↔ w = .int8)) ∧
    (∀ (w : IntWidth) (x : BitVec w.bits), w.size ≤ (s.pool.buffers i).prependableBytes →
      ∃ b, (s.pool.buffers i).prependInt native endian w x = .ok b ∧
        b.toStringView = (endian.bytes w.size x).map some ++ (s.pool.buffers i).toStringView ∧
        (b.ReadsBack native endian w x (s.pool.buffers i).toStringView ↔ w = .int8)) ∧
    ((s.pool.buffers i).toStringView = [] → ∀ (xs : List ((w : IntWidth) × BitVec w.bits)) (b : Buffer),
      (s.pool.buffers i).appendInts native endian xs = .ok b →
        b.toStringView = Buffer.encoded endian xs ∧
        ((∃ b', b.readInts native endian (xs.map Sigma.fst) = .ok (xs, b') ∧ b'.toStringView = []) ↔
          ∀ x ∈ xs, x.1 = .int8)) := by
  have hvalid : (s.pool.buffers i).Valid :=
    (((sound_iff_findsPlace sizes hsizes ops).mpr hplaces).of_run hr).represents.valid i
  refine ⟨fun hempty w x => ?_, fun w x hroom => ?_, fun hempty xs b happend => ?_⟩
  · obtain ⟨b, happend, hb, hview⟩ := hvalid.appendInt_of_empty native endian hempty w x
    refine ⟨b, happend, hview, hb.readsBack_iff ?_⟩
    rw [hview, List.append_nil]
  · obtain ⟨b, hprepend, hb, hview⟩ := hvalid.prependInt hroom
    exact ⟨b, hprepend, hview, hb.readsBack_iff hview⟩
  · obtain ⟨-, hview⟩ := hvalid.appendInts_ok xs happend
    rw [hempty, List.nil_append] at hview
    exact ⟨hview, hvalid.readInts_iff hempty happend⟩

/-- A byte is put in front of two others, and read back. -/
theorem codec_iff_prepended : ∃ (s : MovedPool Unit) (b : Buffer),
    Machine.run step (initial fun _ => 0) [.pool (.on () (.append ⟨[1, 2], by decide⟩))] = some s ∧
      (s.pool.buffers ()).prependInt8 .little .big 7 = .ok b ∧
      b.ReadsBack .little .big .int8 7 (s.pool.buffers ()).toStringView := by
  have hruns : (Machine.run step (initial fun _ : Unit => 0)
      [.pool (.on () (.append ⟨[1, 2], by decide⟩))]).map (fun s => (s.pool.buffers ()).readerIndex) =
      some 8 := by decide +kernel
  obtain ⟨s, hr, hreader⟩ := Option.map_eq_some_iff.mp hruns
  have hsize : Buffer.kCheapPrepend + 0 ≤ maxSize := by decide
  obtain ⟨-, hprepends, -⟩ :=
    codec_iff (fun _ => 0) (fun _ => hsize) _ (by decide +kernel) s hr () .little .big
  have hroom : IntWidth.int8.size ≤ (s.pool.buffers ()).prependableBytes := by
    show 1 ≤ (s.pool.buffers ()).readerIndex
    omega
  obtain ⟨b, hprepend, -, hreads⟩ := hprepends .int8 7 hroom
  exact ⟨s, b, hr, hprepend, hreads.mpr rfl⟩

/-- Two bytes are appended to a new buffer, and cannot be read back. -/
theorem not_codec_int16 :
    ¬ ∀ (native endian : Endian) (w : IntWidth) (x : BitVec w.bits) (b : Buffer),
      (Buffer.ofSize Buffer.kInitialSize).appendInt native endian w x = .ok b →
        b.ReadsBack native endian w x [] := by
  intro h
  have hnew : (Buffer.ofSize Buffer.kInitialSize).WellFormed := Buffer.wellFormed_ofSize (by decide)
  obtain ⟨b, happend, -⟩ :=
    hnew.valid.appendInt_of_empty .little .big Buffer.toStringView_ofSize .int16 1
  exact Buffer.peekInt_ne_ok (by decide) (h .little .big .int16 1 b happend).peeks

end MovedPool

end Hulatang
