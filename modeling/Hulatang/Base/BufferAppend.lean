import Hulatang.Base.ByteQueue

/-!
# Appending a buffer

`append(const BufferEndian &)` hands `append(data, len)` the number of readable bytes, and for their place
`begin()`, where the vector begins, instead of `peek()`. What it copies is what is readable only where the
reader index is at the front of the vector, which takes eight bytes put in front of a new buffer, or where
nothing is readable (`concatenates_iff`).
-/

namespace Hulatang

namespace Buffer

/-- The places of a buffer that its `append` to another one copies. -/
def copied (b : Buffer) : ℕ × ℕ := (0, b.readableBytes)

/-- `append(buffer)`. -/
def appendBuffer (a b : Buffer) : Except Fault Buffer := a.appendView (segment b.buffer b.copied.1 b.copied.2)

/-- What the append is for: it adds the readable bytes of `b`, and reads nothing else. -/
structure Concatenates (a b : Buffer) : Prop where
  appends : ∃ a', a.appendBuffer b = .ok a' ∧ a'.toStringView = a.toStringView ++ b.toStringView
  within : ∀ i, b.copied.1 ≤ i → i < b.copied.2 → b.readerIndex ≤ i ∧ i < b.writerIndex

namespace Valid

variable {a b : Buffer}

/-- The vector grows beyond its largest size. -/
theorem appendView_of_not_fits (h : Valid a) {str : List NoInit} (hlen : str.length ≤ maxSize)
    (hfits : ¬ a.Fits str.length) : a.appendView str = .error .lengthError := by
  obtain ⟨hfull, hgrow, hbig⟩ : ¬ str.length ≤ a.writableBytes ∧
      ¬ str.length + kCheapPrepend ≤ a.writableBytes + a.readerIndex ∧
      ¬ a.writerIndex + str.length ≤ maxSize := by
    unfold Fits at hfits
    omega
  have hresize : a.resize (a.writerIndex + str.length) = .error .lengthError :=
    if_pos (Nat.lt_of_not_le hbig)
  unfold Buffer.appendView Buffer.ensureWritableBytes
  rw [if_pos (Nat.lt_of_not_le hfull), h.makeSpace_eq hlen, if_pos (Nat.lt_of_not_le hgrow), hresize]
  rfl

theorem length_copied (h : Valid b) : (segment b.buffer b.copied.1 b.copied.2).length = b.readableBytes := by
  have hreadable := h.readableBytes_eq
  have hwriter := h.writer_le
  show (segment b.buffer 0 b.readableBytes).length = _
  rw [length_segment (by omega), Nat.sub_zero]

/-- The append adds what it copies, or the vector would be too large. -/
theorem appendBuffer (ha : Valid a) (hb : Valid b) :
    (∃ a', a.appendBuffer b = .ok a' ∧ Kept a a' ∧
        a'.toStringView = a.toStringView ++ segment b.buffer b.copied.1 b.copied.2) ∨
      a.appendBuffer b = .error .lengthError ∧ ¬ a.Fits b.readableBytes := by
  have hcopied := hb.length_copied
  have hreadable := hb.readableBytes_eq
  have hwriter := hb.writer_le
  have hlength := hb.length_le
  have hmax : (segment b.buffer b.copied.1 b.copied.2).length ≤ maxSize := by omega
  rw [← hcopied]
  exact ha.appendView hmax

/-- It returns only where the bytes fit. -/
theorem fits_of_appendBuffer (ha : Valid a) (hb : Valid b) {a' : Buffer} (h : a.appendBuffer b = .ok a') :
    a.Fits b.readableBytes := by
  have hcopied := hb.length_copied
  have hreadable := hb.readableBytes_eq
  have hwriter := hb.writer_le
  have hlength := hb.length_le
  by_contra hfits
  rw [← hcopied] at hfits
  cases h.symm.trans (ha.appendView_of_not_fits (by omega) hfits)

/-- What is copied is what is readable where it begins at the front. -/
theorem segment_copied (h : Valid b) (hcond : b.readableBytes = 0 ∨ b.readerIndex = 0) :
    segment b.buffer b.copied.1 b.copied.2 = b.toStringView := by
  have hreadable := h.readableBytes_eq
  have hreader := h.reader_le
  rw [h.toStringView_eq]
  show segment b.buffer 0 b.readableBytes = _
  rcases hcond with hempty | hfront
  · have heq : b.readerIndex = b.writerIndex := by omega
    rw [hempty, heq, segment_self, segment_self]
  · rw [hreadable, hfront, Nat.sub_zero]

/-- The append of a buffer does what it is for where nothing is readable, or what is readable is at the front
of the vector and fits. -/
theorem concatenates_iff (ha : Valid a) (hb : Valid b) :
    Concatenates a b ↔ b.readableBytes = 0 ∨ b.readerIndex = 0 ∧ a.Fits b.readableBytes := by
  have hreadable := hb.readableBytes_eq
  constructor
  · rintro ⟨⟨a', happend, -⟩, hwithin⟩
    by_cases hempty : b.readableBytes = 0
    · exact .inl hempty
    · have hfront := (hwithin 0 (Nat.le_refl 0) (Nat.pos_of_ne_zero hempty)).1
      exact .inr ⟨Nat.le_zero.mp hfront, ha.fits_of_appendBuffer hb happend⟩
  · intro hcond
    have hcopied := hb.segment_copied (hcond.imp_right And.left)
    have hfits : a.Fits b.readableBytes := by
      rcases hcond with hempty | ⟨-, hfits⟩
      · exact .inl (hempty ▸ Nat.zero_le _)
      · exact hfits
    constructor
    · rcases ha.appendBuffer hb with ⟨a', happend, -, hview⟩ | ⟨-, hnot⟩
      · exact ⟨a', happend, by rw [hview, hcopied]⟩
      · exact absurd hfits hnot
    · intro i _ hi
      change i < b.readableBytes at hi
      rcases hcond with hempty | ⟨hfront, -⟩
      · omega
      · omega

end Valid

end Buffer

namespace BufferPool

variable {ι : Type*} [DecidableEq ι]

/-- In every state that buffers reach, the append of one to another concatenates exactly where the other has
nothing to read, or all of it at the front of its vector and the first one can hold it. -/
theorem concatenates_iff_of_run (sizes : ι → ℕ) (hsizes : ∀ i, Buffer.kCheapPrepend + sizes i ≤ maxSize)
    (ops : List (Op ι)) (p : BufferPool ι) (hr : Machine.run step (initial sizes) ops = some p) (i j : ι)
    (_ : i ≠ j) :
    (p.buffers i).Concatenates (p.buffers j) ↔
      (p.buffers j).readableBytes = 0 ∨
        (p.buffers j).readerIndex = 0 ∧ (p.buffers i).Fits (p.buffers j).readableBytes := by
  obtain ⟨himplements, -⟩ := implements_of_run sizes hsizes ops p hr
  exact (himplements.wellFormed i).valid.concatenates_iff (himplements.wellFormed j).valid

/-- A buffer with eight bytes put in front of it is appended as it is. -/
theorem concatenates_prepended : ∃ p : BufferPool Bool,
    Machine.run step (initial fun _ => 0)
      [.on true (.append ⟨[1], by decide⟩),
        .on false (.prepend ⟨[2, 3, 4, 5, 6, 7, 8, 9], by decide⟩)] = some p ∧
      (p.buffers true).Concatenates (p.buffers false) := by
  have hruns : (Machine.run step (initial fun _ : Bool => 0)
      [.on true (.append ⟨[1], by decide⟩),
        .on false (.prepend ⟨[2, 3, 4, 5, 6, 7, 8, 9], by decide⟩)]).map
        (fun p => ((p.buffers false).readerIndex, (p.buffers false).readableBytes,
          (p.buffers true).writerIndex)) =
      some (0, 8, 9) := by decide +kernel
  obtain ⟨p, hr, hindices⟩ := Option.map_eq_some_iff.mp hruns
  obtain ⟨hfront, hreadable, hwriter⟩ : (p.buffers false).readerIndex = 0 ∧
      (p.buffers false).readableBytes = 8 ∧ (p.buffers true).writerIndex = 9 := by
    simpa only [Prod.mk.injEq] using hindices
  refine ⟨p, hr, (concatenates_iff_of_run (fun _ => 0) (by decide) _ p hr true false (by decide)).mpr ?_⟩
  refine .inr ⟨hfront, .inr (.inr ?_)⟩
  rw [hwriter, hreadable]
  decide

/-- Of a new buffer with one byte, the append copies one that was never written. -/
theorem not_concatenates_appended :
    ¬ ∀ (ops : List (Op Bool)) (p : BufferPool Bool), Machine.run step (initial fun _ => 0) ops = some p →
      (p.buffers true).Concatenates (p.buffers false) := by
  intro h
  have hruns : (Machine.run step (initial fun _ : Bool => 0) [.on false (.append ⟨[1], by decide⟩)]).map
      (fun p => ((p.buffers false).readerIndex, (p.buffers false).copied)) = some (8, (0, 1)) := by
    decide +kernel
  obtain ⟨p, hr, hindices⟩ := Option.map_eq_some_iff.mp hruns
  obtain ⟨hreader, hcopied⟩ : (p.buffers false).readerIndex = 8 ∧ (p.buffers false).copied = (0, 1) := by
    simpa only [Prod.mk.injEq] using hindices
  have hfirst : (p.buffers false).copied.1 = 0 := congrArg Prod.fst hcopied
  have hlast : (p.buffers false).copied.2 = 1 := congrArg Prod.snd hcopied
  have hwithin := ((h _ p hr).within 0 (by omega) (by omega)).1
  rw [hreader] at hwithin
  exact absurd hwithin (by decide)

end BufferPool

end Hulatang
