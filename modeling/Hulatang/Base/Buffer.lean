import Mathlib.Algebra.Group.Nat.Defs
import Hulatang.Lib.Segment

/-!
# `BufferEndian`

A vector of bytes with a reader and a writer index. The indices are `size_t`, so sums and differences
wrap around at `2^64`. A byte of the vector that has never been written is `none` (`NoInit<char>`). A
failed assertion, and a `resize` beyond `max_size()`, end the operation with a `Fault`.

`Valid` says that the indices are in order and inside of the vector. From it each operation has one
specification in terms of the readable bytes, and neither wraps nor fails an assertion, if only
`retrieveAll` finds the place that it resets the indices to. `WellFormed`, the representation invariant of
a buffer that has not been moved from, has this place too.
-/

namespace Hulatang

/-- How an operation ends that does not return. -/
inductive Fault
  /-- A failed `assert`. -/
  | assertion
  /-- `std::length_error`, thrown by `std::vector::resize`. -/
  | lengthError
  deriving DecidableEq

/-- `PTRDIFF_MAX`, the size of the largest object, and `max_size()` of a vector of bytes. -/
def maxSize : ℕ := 2^63 - 1

/-- The sum of two `size_t`. -/
def addSize (a b : ℕ) : ℕ := (a + b) % 2^64

/-- Their difference. -/
def subSize (a b : ℕ) : ℕ := (a + (2^64 - b)) % 2^64

theorem addSize_eq {a b : ℕ} (h : a + b < 2^64) : addSize a b = a + b :=
  Nat.mod_eq_of_lt h

theorem subSize_eq {a b : ℕ} (hb : b ≤ a) (ha : a < 2^64) : subSize a b = a - b := by
  have hsum : a + (2^64 - b) = (a - b) + 2^64 := by omega
  unfold subSize
  rw [hsum, Nat.add_mod_right]
  exact Nat.mod_eq_of_lt (by omega)

/-- A byte of the vector, if it has been written. -/
abbrev NoInit : Type := Option UInt8

/-- `BufferEndian`. -/
structure Buffer where
  buffer : List NoInit
  readerIndex : ℕ
  writerIndex : ℕ
  deriving DecidableEq

/-- `Buf`: bytes that are in memory. -/
structure Buf where
  buf : List UInt8
  len_le : buf.length ≤ maxSize
  deriving DecidableEq

namespace Buffer

def kCheapPrepend : ℕ := 8
def kInitialSize : ℕ := 1024

/-- The constructor. -/
def ofSize (initialSize : ℕ) : Buffer where
  buffer := List.replicate (kCheapPrepend + initialSize) none
  readerIndex := kCheapPrepend
  writerIndex := kCheapPrepend

def readableBytes (b : Buffer) : ℕ := subSize b.writerIndex b.readerIndex

def writableBytes (b : Buffer) : ℕ := subSize b.buffer.length b.writerIndex

def prependableBytes (b : Buffer) : ℕ := b.readerIndex

/-- `toString_view`: the readable bytes, `readableBytes()` of them from `peek()` on. -/
def toStringView (b : Buffer) : List NoInit :=
  segment b.buffer b.readerIndex (b.readerIndex + b.readableBytes)

def retrieveAll (b : Buffer) : Buffer :=
  { b with readerIndex := kCheapPrepend, writerIndex := kCheapPrepend }

def retrieve (b : Buffer) (len : ℕ) : Except Fault Buffer :=
  if len ≤ b.readableBytes then
    if len < b.readableBytes then .ok { b with readerIndex := addSize b.readerIndex len }
    else .ok b.retrieveAll
  else .error .assertion

/-- `buffer_.resize(n)`, whose new bytes are not written. -/
def resize (b : Buffer) (n : ℕ) : Except Fault Buffer :=
  if maxSize < n then .error .lengthError
  else .ok { b with buffer := b.buffer.take n ++ List.replicate (n - b.buffer.length) none }

/-- The readable bytes moved to the front, in the second branch of `makeSpace`. -/
def compact (b : Buffer) : Buffer where
  buffer := overwrite b.buffer kCheapPrepend (segment b.buffer b.readerIndex b.writerIndex)
  readerIndex := kCheapPrepend
  writerIndex := addSize kCheapPrepend b.readableBytes

def makeSpace (b : Buffer) (len : ℕ) : Except Fault Buffer :=
  -- Growth never moves the readable bytes: what is free before them stays free.
  if addSize b.writableBytes b.prependableBytes < addSize len kCheapPrepend then
    b.resize (addSize b.writerIndex len)
  else if kCheapPrepend < b.readerIndex ∧ b.readableBytes = b.compact.readableBytes then
    .ok b.compact
  else .error .assertion

def ensureWritableBytes (b : Buffer) (len : ℕ) : Except Fault Buffer := do
  let b ← if b.writableBytes < len then b.makeSpace len else .ok b
  if len ≤ b.writableBytes then .ok b else .error .assertion

def hasWritten (b : Buffer) (len : ℕ) : Except Fault Buffer :=
  if len ≤ b.writableBytes then .ok { b with writerIndex := addSize b.writerIndex len }
  else .error .assertion

/-- `append(data, len)`. -/
def append (b : Buffer) (data : List UInt8) : Except Fault Buffer := do
  let b ← b.ensureWritableBytes data.length
  hasWritten { b with buffer := overwrite b.buffer b.writerIndex (data.map some) } data.length

/-- `append(str)`, whose bytes may come from another buffer. -/
def appendView (b : Buffer) (str : List NoInit) : Except Fault Buffer := do
  let b ← b.ensureWritableBytes str.length
  hasWritten { b with buffer := overwrite b.buffer b.writerIndex str } str.length

theorem append_eq (b : Buffer) (data : List UInt8) : b.append data = b.appendView (data.map some) := by
  unfold append appendView
  rw [List.length_map]

/-- Where both indices are at the place that they are reset to nothing is readable. -/
theorem toStringView_of_eq {b : Buffer} (hreader : b.readerIndex = kCheapPrepend)
    (hwriter : b.writerIndex = kCheapPrepend) : b.toStringView = [] := by
  have hreadable : b.readableBytes = 0 := by
    unfold readableBytes
    rw [hreader, hwriter]
    exact subSize_eq (Nat.le_refl _) (by decide)
  unfold toStringView
  rw [hreadable, Nat.add_zero]
  exact segment_self

theorem toStringView_ofSize {n : ℕ} : (ofSize n).toStringView = [] := toStringView_of_eq rfl rfl

theorem toStringView_retrieveAll {b : Buffer} : b.retrieveAll.toStringView = [] := toStringView_of_eq rfl rfl

/-- A retrieval leaves the vector as it is. -/
theorem retrieve_buffer {b b' : Buffer} {n : ℕ} (h : b.retrieve n = .ok b') : b'.buffer = b.buffer := by
  unfold retrieve at h
  split_ifs at h <;> cases h <;> rfl

/-! ## The representation invariant -/

/-- There is room for so many bytes, or the vector can grow by them. -/
def Fits (b : Buffer) (len : ℕ) : Prop :=
  len ≤ b.writableBytes ∨ len + kCheapPrepend ≤ b.writableBytes + b.readerIndex ∨
    b.writerIndex + len ≤ maxSize

theorem lt_of_not_fits {b : Buffer} {len : ℕ} (h : ¬ b.Fits len) : maxSize < b.writerIndex + len := by
  unfold Fits at h
  omega

/-- The indices are in order and inside of the vector. -/
structure Valid (b : Buffer) : Prop where
  reader_le : b.readerIndex ≤ b.writerIndex
  writer_le : b.writerIndex ≤ b.buffer.length
  length_le : b.buffer.length ≤ maxSize

structure WellFormed (b : Buffer) : Prop where
  reader_le : b.readerIndex ≤ b.writerIndex
  writer_le : b.writerIndex ≤ b.buffer.length
  prepend_le : kCheapPrepend ≤ b.buffer.length
  length_le : b.buffer.length ≤ maxSize

theorem wellFormed_ofSize {n : ℕ} (hn : kCheapPrepend + n ≤ maxSize) : WellFormed (ofSize n) := by
  refine ⟨Nat.le_refl _, ?_, ?_, ?_⟩ <;> simp only [ofSize, List.length_replicate] <;> omega

/-- What an operation leaves: a valid buffer, which has the place of `retrieveAll` if it had it before. -/
structure Kept (b b' : Buffer) : Prop where
  valid : Valid b'
  prepend_le : kCheapPrepend ≤ b.buffer.length → kCheapPrepend ≤ b'.buffer.length

theorem WellFormed.valid {b : Buffer} (h : WellFormed b) : Valid b := ⟨h.reader_le, h.writer_le, h.length_le⟩

theorem Valid.wellFormed {b : Buffer} (h : Valid b) (hprepend : kCheapPrepend ≤ b.buffer.length) :
    WellFormed b :=
  ⟨h.reader_le, h.writer_le, hprepend, h.length_le⟩

theorem WellFormed.kept {b b' : Buffer} (h : WellFormed b) (hkept : Kept b b') : WellFormed b' :=
  hkept.valid.wellFormed (hkept.prepend_le h.prepend_le)

namespace Kept

variable {b b₁ b₂ : Buffer}

theorem refl (h : Valid b) : Kept b b := ⟨h, fun hprepend => hprepend⟩

theorem trans (h : Kept b b₁) (h' : Kept b₁ b₂) : Kept b b₂ :=
  ⟨h'.valid, fun hprepend => h'.prepend_le (h.prepend_le hprepend)⟩

theorem of_length_le (h : Valid b₁) (hlength : b.buffer.length ≤ b₁.buffer.length) : Kept b b₁ :=
  ⟨h, fun hprepend => Nat.le_trans hprepend hlength⟩

end Kept

namespace Valid

variable {b : Buffer} (h : Valid b)

include h

/-- No index is near to wrapping around. -/
theorem length_lt : b.buffer.length < 2^63 := by
  have hlength := h.length_le
  unfold maxSize at hlength
  omega

theorem readableBytes_eq : b.readableBytes = b.writerIndex - b.readerIndex := by
  have hlength := h.length_lt
  have hwriter := h.writer_le
  exact subSize_eq h.reader_le (by omega)

theorem writableBytes_eq : b.writableBytes = b.buffer.length - b.writerIndex := by
  have hlength := h.length_lt
  exact subSize_eq h.writer_le (by omega)

theorem toStringView_eq : b.toStringView = segment b.buffer b.readerIndex b.writerIndex := by
  unfold toStringView
  rw [h.readableBytes_eq, Nat.add_sub_cancel' h.reader_le]

theorem length_toStringView : b.toStringView.length = b.readableBytes := by
  rw [h.toStringView_eq, length_segment h.writer_le, h.readableBytes_eq]

/-- What is left to retrieve everything. -/
theorem retrieveAll (hroom : kCheapPrepend ≤ b.buffer.length) :
    Kept b b.retrieveAll ∧ b.retrieveAll.toStringView = [] := by
  have hvalid : Valid b.retrieveAll := ⟨Nat.le_refl _, hroom, h.length_le⟩
  exact ⟨.of_length_le hvalid (Nat.le_refl _), toStringView_retrieveAll⟩

/-- Retrieving what is there drops it from the readable bytes. -/
theorem retrieve {n : ℕ} (hn : n ≤ b.readableBytes)
    (hroom : n < b.readableBytes ∨ kCheapPrepend ≤ b.buffer.length) :
    ∃ b', b.retrieve n = .ok b' ∧ Kept b b' ∧ b'.toStringView = b.toStringView.drop n := by
  have hreadable := h.readableBytes_eq
  have hlength := h.length_lt
  have hreader := h.reader_le
  have hwriter := h.writer_le
  unfold Buffer.retrieve
  rw [if_pos hn]
  by_cases hlt : n < b.readableBytes
  · rw [if_pos hlt, addSize_eq (by omega)]
    have hvalid : Valid { b with readerIndex := b.readerIndex + n } :=
      ⟨by show b.readerIndex + n ≤ b.writerIndex; omega, hwriter, h.length_le⟩
    refine ⟨_, rfl, .of_length_le hvalid (Nat.le_refl _), ?_⟩
    rw [hvalid.toStringView_eq, h.toStringView_eq, drop_segment]
  · rw [if_neg hlt]
    obtain ⟨hkept, hview⟩ := h.retrieveAll (hroom.resolve_left hlt)
    have hall : b.toStringView.drop n = [] := by
      refine List.drop_eq_nil_of_le ?_
      rw [h.length_toStringView]
      omega
    exact ⟨_, rfl, hkept, hview.trans hall.symm⟩

/-- Growth keeps the readable bytes, and makes room. -/
theorem resize {len : ℕ} (hfits : b.writerIndex + len ≤ maxSize) (hgrows : b.writableBytes < len) :
    ∃ b', b.resize (b.writerIndex + len) = .ok b' ∧ Kept b b' ∧
      b'.toStringView = b.toStringView ∧ len ≤ b'.writableBytes := by
  have hwritable := h.writableBytes_eq
  have hwriter := h.writer_le
  let grown : Buffer :=
    { b with buffer := b.buffer ++ List.replicate (b.writerIndex + len - b.buffer.length) none }
  have hsize : grown.buffer.length = b.writerIndex + len := by
    show (b.buffer ++ _).length = _
    rw [List.length_append, List.length_replicate]
    omega
  have hvalid : Valid grown :=
    ⟨h.reader_le, by rw [hsize]; exact Nat.le_add_right .., by omega⟩
  have hresize : b.resize (b.writerIndex + len) = .ok grown := by
    unfold Buffer.resize
    rw [if_neg (by omega), List.take_of_length_le (by omega)]
  refine ⟨grown, hresize, .of_length_le hvalid (by omega), ?_, ?_⟩
  · rw [hvalid.toStringView_eq, h.toStringView_eq]
    exact segment_append_left _ hwriter
  · rw [hvalid.writableBytes_eq, hsize]
    show len ≤ b.writerIndex + len - b.writerIndex
    omega

/-- So does compaction, when reader and writer leave enough room between them. -/
theorem compact {len : ℕ} (hfull : b.writableBytes < len)
    (hroom : len + kCheapPrepend ≤ b.writableBytes + b.readerIndex) :
    Kept b b.compact ∧ b.compact.toStringView = b.toStringView ∧ len ≤ b.compact.writableBytes := by
  have hreadable := h.readableBytes_eq
  have hwritable := h.writableBytes_eq
  have hreader := h.reader_le
  have hwriter := h.writer_le
  have hlength := h.length_lt
  have hmoved : (segment b.buffer b.readerIndex b.writerIndex).length = b.readableBytes := by
    rw [length_segment hwriter, hreadable]
  have hindex : b.compact.writerIndex = kCheapPrepend + b.readableBytes := by
    exact addSize_eq (by unfold kCheapPrepend; omega)
  have hsize : b.compact.buffer.length = b.buffer.length := by
    refine length_overwrite ?_
    rw [hmoved]
    omega
  have hvalid : Valid b.compact := by
    refine ⟨?_, ?_, ?_⟩
    · rw [hindex]
      exact Nat.le_add_right ..
    · rw [hindex, hsize]
      omega
    · rw [hsize]
      exact h.length_le
  refine ⟨.of_length_le hvalid (by omega), ?_, ?_⟩
  · rw [hvalid.toStringView_eq, h.toStringView_eq, hindex, ← hmoved]
    exact segment_overwrite_self (by omega)
  · rw [hvalid.writableBytes_eq, hsize, hindex]
    omega

/-- None of the sums of `makeSpace` wraps. -/
theorem makeSpace_eq {len : ℕ} (hlen : len ≤ maxSize) :
    b.makeSpace len =
      if b.writableBytes + b.readerIndex < len + kCheapPrepend then b.resize (b.writerIndex + len)
      else if kCheapPrepend < b.readerIndex ∧ b.readableBytes = b.compact.readableBytes then .ok b.compact
      else .error .assertion := by
  have hwritable := h.writableBytes_eq
  have hreader := h.reader_le
  have hwriter := h.writer_le
  have hlength := h.length_le
  have hsum : addSize b.writableBytes b.prependableBytes = b.writableBytes + b.readerIndex := by
    unfold maxSize at hlength
    exact addSize_eq (by show b.writableBytes + b.readerIndex < _; omega)
  have hneed : addSize len kCheapPrepend = len + kCheapPrepend := by
    unfold maxSize at hlen
    unfold kCheapPrepend
    exact addSize_eq (by omega)
  have hnew : addSize b.writerIndex len = b.writerIndex + len := by
    unfold maxSize at hlength hlen
    exact addSize_eq (by omega)
  unfold Buffer.makeSpace
  rw [hsum, hneed, hnew]

/-- `makeSpace` makes room and keeps the readable bytes, or the vector would be too large. -/
theorem makeSpace {len : ℕ} (hlen : len ≤ maxSize) (hfull : b.writableBytes < len) :
    (∃ b', b.makeSpace len = .ok b' ∧ Kept b b' ∧ b'.toStringView = b.toStringView ∧
        len ≤ b'.writableBytes) ∨
      b.makeSpace len = .error .lengthError ∧ ¬ b.Fits len := by
  have hwritable := h.writableBytes_eq
  have hwriter := h.writer_le
  rw [h.makeSpace_eq hlen]
  by_cases hgrow : b.writableBytes + b.readerIndex < len + kCheapPrepend
  · rw [if_pos hgrow]
    by_cases hfits : b.writerIndex + len ≤ maxSize
    · exact .inl (h.resize hfits hfull)
    · refine .inr ⟨?_, by unfold Fits; omega⟩
      unfold Buffer.resize
      rw [if_pos (by omega)]
  · rw [if_neg hgrow]
    obtain ⟨hcompact, hview, hroom⟩ := h.compact hfull (by omega)
    -- The assertion after the copy.
    have hkept : b.readableBytes = b.compact.readableBytes := by
      rw [← h.length_toStringView, ← hcompact.valid.length_toStringView, hview]
    rw [if_pos ⟨by omega, hkept⟩]
    exact .inl ⟨b.compact, rfl, hcompact, hview, hroom⟩

theorem ensureWritableBytes {len : ℕ} (hlen : len ≤ maxSize) :
    (∃ b', b.ensureWritableBytes len = .ok b' ∧ Kept b b' ∧ b'.toStringView = b.toStringView ∧
        len ≤ b'.writableBytes) ∨
      b.ensureWritableBytes len = .error .lengthError ∧ ¬ b.Fits len := by
  unfold Buffer.ensureWritableBytes
  by_cases hfull : b.writableBytes < len
  · rw [if_pos hfull]
    rcases h.makeSpace hlen hfull with ⟨b', hmade, hkept, hview, hroom⟩ | ⟨hfault, hbig⟩
    · refine .inl ⟨b', ?_, hkept, hview, hroom⟩
      rw [hmade]
      exact if_pos hroom
    · refine .inr ⟨?_, hbig⟩
      rw [hfault]
      rfl
  · rw [if_neg hfull]
    exact .inl ⟨b, if_pos (by omega), .refl h, rfl, by omega⟩

/-- A copy to `beginWrite()` that fits, and `hasWritten`, add to the readable bytes. -/
theorem written (data : List NoInit) (hroom : data.length ≤ b.writableBytes) :
    ∃ b', Buffer.hasWritten { b with buffer := overwrite b.buffer b.writerIndex data } data.length =
        .ok b' ∧
      Kept b b' ∧ b'.toStringView = b.toStringView ++ data ∧
      b'.writableBytes = b.writableBytes - data.length := by
  have hwritable := h.writableBytes_eq
  have hwriter := h.writer_le
  have hreader := h.reader_le
  have hlength := h.length_lt
  have hsize : (overwrite b.buffer b.writerIndex data).length = b.buffer.length :=
    length_overwrite (by omega)
  let b' : Buffer :=
    { b with
      buffer := overwrite b.buffer b.writerIndex data, writerIndex := b.writerIndex + data.length }
  have hvalid : Valid b' := by
    refine ⟨?_, ?_, ?_⟩
    · show b.readerIndex ≤ b.writerIndex + data.length
      omega
    · show b.writerIndex + data.length ≤ (overwrite b.buffer b.writerIndex data).length
      omega
    · show (overwrite b.buffer b.writerIndex data).length ≤ maxSize
      rw [hsize]
      exact h.length_le
  have hdone : Buffer.hasWritten { b with buffer := overwrite b.buffer b.writerIndex data }
      data.length = .ok b' := by
    unfold Buffer.hasWritten
    rw [addSize_eq (by show b.writerIndex + data.length < 2^64; omega)]
    refine if_pos ?_
    show data.length ≤ subSize (overwrite b.buffer b.writerIndex data).length b.writerIndex
    rw [hsize]
    exact hroom
  refine ⟨b', hdone, .of_length_le hvalid (Nat.le_of_eq hsize.symm), ?_, ?_⟩
  · rw [hvalid.toStringView_eq, h.toStringView_eq]
    show segment (overwrite b.buffer b.writerIndex data) b.readerIndex (b.writerIndex + data.length) = _
    -- The readable bytes are those before the old writer index and the copy behind it.
    rw [← segment_append hreader (Nat.le_add_right ..), segment_overwrite_before (Nat.le_refl _) hwriter,
      segment_overwrite_self hwriter]
  · rw [hvalid.writableBytes_eq]
    show (overwrite b.buffer b.writerIndex data).length - (b.writerIndex + data.length) = _
    omega

/-- `append` adds the data to the readable bytes, or the vector would be too large. -/
theorem appendView {str : List NoInit} (hlen : str.length ≤ maxSize) :
    (∃ b', b.appendView str = .ok b' ∧ Kept b b' ∧ b'.toStringView = b.toStringView ++ str) ∨
      b.appendView str = .error .lengthError ∧ ¬ b.Fits str.length := by
  unfold Buffer.appendView
  rcases h.ensureWritableBytes hlen with ⟨b₁, hensured, hkept, hview, hroom⟩ | ⟨hfault, hfits⟩
  · obtain ⟨b', hdone, hkept', hview', -⟩ := hkept.valid.written str hroom
    refine .inl ⟨b', ?_, hkept.trans hkept', ?_⟩
    · rw [hensured]
      exact hdone
    · rw [hview', hview]
  · refine .inr ⟨?_, hfits⟩
    rw [hfault]
    rfl

theorem append {data : List UInt8} (hlen : data.length ≤ maxSize) :
    (∃ b', b.append data = .ok b' ∧ Kept b b' ∧ b'.toStringView = b.toStringView ++ data.map some) ∨
      b.append data = .error .lengthError := by
  rw [append_eq]
  exact (h.appendView (by rw [List.length_map]; exact hlen)).imp_right And.left

end Valid

namespace WellFormed

variable {b : Buffer} (h : WellFormed b)

include h

theorem length_lt : b.buffer.length < 2^63 := h.valid.length_lt

theorem readableBytes_eq : b.readableBytes = b.writerIndex - b.readerIndex := h.valid.readableBytes_eq

theorem writableBytes_eq : b.writableBytes = b.buffer.length - b.writerIndex := h.valid.writableBytes_eq

theorem toStringView_eq : b.toStringView = segment b.buffer b.readerIndex b.writerIndex :=
  h.valid.toStringView_eq

theorem length_toStringView : b.toStringView.length = b.readableBytes := h.valid.length_toStringView

/-- Retrieving what is there drops it from the readable bytes. -/
theorem retrieve {n : ℕ} (hn : n ≤ b.readableBytes) :
    ∃ b', b.retrieve n = .ok b' ∧ WellFormed b' ∧ b'.toStringView = b.toStringView.drop n := by
  obtain ⟨b', hdone, hkept, hview⟩ := h.valid.retrieve hn (.inr h.prepend_le)
  exact ⟨b', hdone, h.kept hkept, hview⟩

theorem ensureWritableBytes {len : ℕ} (hlen : len ≤ maxSize) :
    (∃ b', b.ensureWritableBytes len = .ok b' ∧ WellFormed b' ∧ b'.toStringView = b.toStringView ∧
        len ≤ b'.writableBytes) ∨
      b.ensureWritableBytes len = .error .lengthError ∧ maxSize < b.writerIndex + len := by
  rcases h.valid.ensureWritableBytes hlen with ⟨b', hdone, hkept, hrest⟩ | ⟨hfault, hfits⟩
  · exact .inl ⟨b', hdone, h.kept hkept, hrest⟩
  · exact .inr ⟨hfault, lt_of_not_fits hfits⟩

/-- A copy to `beginWrite()` that fits, and `hasWritten`, add to the readable bytes. -/
theorem written (data : List NoInit) (hroom : data.length ≤ b.writableBytes) :
    ∃ b', Buffer.hasWritten { b with buffer := overwrite b.buffer b.writerIndex data } data.length =
        .ok b' ∧
      WellFormed b' ∧ b'.toStringView = b.toStringView ++ data ∧
      b'.writableBytes = b.writableBytes - data.length := by
  obtain ⟨b', hdone, hkept, hrest⟩ := h.valid.written data hroom
  exact ⟨b', hdone, h.kept hkept, hrest⟩

/-- `append` adds the data to the readable bytes, or the vector would be too large. -/
theorem appendView {str : List NoInit} (hlen : str.length ≤ maxSize) :
    (∃ b', b.appendView str = .ok b' ∧ WellFormed b' ∧ b'.toStringView = b.toStringView ++ str) ∨
      b.appendView str = .error .lengthError ∧ maxSize < b.writerIndex + str.length := by
  rcases h.valid.appendView hlen with ⟨b', hdone, hkept, hview⟩ | ⟨hfault, hfits⟩
  · exact .inl ⟨b', hdone, h.kept hkept, hview⟩
  · exact .inr ⟨hfault, lt_of_not_fits hfits⟩

theorem append {data : List UInt8} (hlen : data.length ≤ maxSize) :
    (∃ b', b.append data = .ok b' ∧ WellFormed b' ∧
        b'.toStringView = b.toStringView ++ data.map some) ∨
      b.append data = .error .lengthError ∧ maxSize < b.writerIndex + data.length := by
  have hlength : (data.map some).length = data.length := List.length_map ..
  rw [append_eq, ← hlength]
  exact h.appendView (by rw [hlength]; exact hlen)

/-- What an append that does not throw leaves. -/
theorem appended {data : List UInt8} {b' : Buffer} (hlen : data.length ≤ maxSize)
    (happend : b.append data = .ok b') :
    WellFormed b' ∧ b'.toStringView = b.toStringView ++ data.map some := by
  rcases h.append hlen with ⟨b₁, hok, hwf, hview⟩ | ⟨herror, -⟩
  · obtain rfl : b₁ = b' := Except.ok.inj (hok.symm.trans happend)
    exact ⟨hwf, hview⟩
  · rw [herror] at happend
    cases happend

end WellFormed

end Buffer

end Hulatang
