import Mathlib.Tactic.SplitIfs
import Hulatang.Base.Buffer

/-!
# Where an append leaves the bytes

An append may leave the vector as it is, grow it, or move the readable bytes to its front. Which of these
it does depends on the room behind the writer index and in front of the reader index.
-/

namespace Hulatang

namespace Buffer

/-- What becomes of the readable bytes and of the vector when room for `len` bytes is made. -/
inductive Placed (b : Buffer) (len : ℕ) (b' : Buffer) : Prop
  | room (hroom : len ≤ b.writableBytes) (hreader : b'.readerIndex = b.readerIndex)
      (hlength : b'.buffer.length = b.buffer.length)
  | grown (hfull : b.writableBytes < len)
      (hgrow : b.writableBytes + b.prependableBytes < len + kCheapPrepend)
      (hreader : b'.readerIndex = b.readerIndex) (hlength : b'.buffer.length = b.writerIndex + len)
  | compacted (hfull : b.writableBytes < len)
      (hgap : len + kCheapPrepend ≤ b.writableBytes + b.prependableBytes)
      (hreader : b'.readerIndex = kCheapPrepend) (hmoved : kCheapPrepend < b.readerIndex)
      (hlength : b'.buffer.length = b.buffer.length)

namespace WellFormed

variable {b : Buffer} (h : WellFormed b)

include h

theorem placed_makeSpace {len : ℕ} {b' : Buffer} (hlen : len ≤ maxSize)
    (hfull : b.writableBytes < len) (hb : b.makeSpace len = .ok b') : Placed b len b' := by
  have hwritable := h.writableBytes_eq
  have hreader := h.reader_le
  have hwriter := h.writer_le
  have hlength := h.length_le
  have hsum : addSize b.writableBytes b.prependableBytes = b.writableBytes + b.prependableBytes := by
    unfold maxSize at hlength
    exact addSize_eq (by show b.writableBytes + b.readerIndex < _; omega)
  have hneed : addSize len kCheapPrepend = len + kCheapPrepend := by
    unfold maxSize at hlen
    unfold kCheapPrepend
    exact addSize_eq (by omega)
  have hnew : addSize b.writerIndex len = b.writerIndex + len := by
    unfold maxSize at hlength hlen
    exact addSize_eq (by omega)
  unfold Buffer.makeSpace at hb
  rw [hsum, hneed, hnew] at hb
  split_ifs at hb with hgrow hgap
  · unfold Buffer.resize at hb
    split_ifs at hb
    cases hb
    refine .grown hfull hgrow rfl ?_
    simp only [List.length_append, List.length_take, List.length_replicate]
    omega
  · cases hb
    have hmoved : (segment b.buffer b.readerIndex b.writerIndex).length =
        b.writerIndex - b.readerIndex := length_segment hwriter
    refine .compacted hfull (Nat.le_of_not_lt hgrow) rfl hgap.1 (length_overwrite ?_)
    omega

theorem placed_ensureWritableBytes {len : ℕ} {b' : Buffer} (hlen : len ≤ maxSize)
    (hb : b.ensureWritableBytes len = .ok b') : Placed b len b' := by
  unfold Buffer.ensureWritableBytes at hb
  by_cases hfull : b.writableBytes < len
  · rw [if_pos hfull] at hb
    cases hmade : b.makeSpace len with
    | error fault =>
      rw [hmade] at hb
      cases hb
    | ok b₁ =>
      rw [hmade] at hb
      change (if len ≤ b₁.writableBytes then _ else _) = _ at hb
      split_ifs at hb
      cases hb
      exact h.placed_makeSpace hlen hfull hmade
  · rw [if_neg hfull] at hb
    change (if len ≤ b.writableBytes then _ else _) = _ at hb
    split_ifs at hb
    cases hb
    exact .room (Nat.le_of_not_lt hfull) rfl rfl

theorem placed_append {data : List UInt8} {b' : Buffer} (hlen : data.length ≤ maxSize)
    (hb : b.append data = .ok b') : Placed b data.length b' := by
  rcases h.ensureWritableBytes hlen with ⟨b₁, hensured, hwf, -, hroom⟩ | ⟨hfault, -⟩
  case inr =>
    unfold Buffer.append at hb
    rw [hfault] at hb
    cases hb
  -- The copy itself stays within the vector.
  have hcopy : b'.readerIndex = b₁.readerIndex ∧ b'.buffer.length = b₁.buffer.length := by
    have hfits : b₁.writerIndex + (data.map some).length ≤ b₁.buffer.length := by
      have hwritable := hwf.writableBytes_eq
      have hwriter := hwf.writer_le
      rw [List.length_map]
      omega
    have hsize := length_overwrite hfits
    unfold Buffer.append at hb
    rw [hensured] at hb
    change Buffer.hasWritten _ _ = _ at hb
    unfold Buffer.hasWritten at hb
    split_ifs at hb
    cases hb
    exact ⟨rfl, hsize⟩
  have hplaced : Placed b data.length b₁ := h.placed_ensureWritableBytes hlen hensured
  cases hplaced with
  | room hroom hreader hlength =>
    exact .room hroom (hcopy.1.trans hreader) (hcopy.2.trans hlength)
  | grown hfull hgrow hreader hlength =>
    exact .grown hfull hgrow (hcopy.1.trans hreader) (hcopy.2.trans hlength)
  | compacted hfull hgap hreader hmoved hlength =>
    exact .compacted hfull hgap (hcopy.1.trans hreader) hmoved (hcopy.2.trans hlength)

end WellFormed

end Buffer

end Hulatang
