import Mathlib.Logic.Function.Basic
import Hulatang.Base.Buffer
import Hulatang.Lib.Machine

/-!
# `BufferEndian` refines a byte queue

The rest of the operations of `BufferEndian`, and what it is for: a queue of bytes that is appended to
at its end, taken from and put back at its front, and cut at its end. A pool holds buffers by name, so
that a run may swap two of them and move one to another. A run calls an operation when its asserted
precondition holds, and ends when a size reaches beyond `max_size()`; what is left to show of the
assertions is that those inside `ensureWritableBytes` and `makeSpace` hold.
-/

namespace Hulatang

namespace Buffer

/-- `retrieveUntil(peek() + stop)`. -/
def retrieveUntil (b : Buffer) (stop : ℤ) : Except Fault Buffer :=
  if 0 ≤ stop ∧ stop ≤ b.readableBytes then b.retrieve stop.toNat else .error .assertion

/-- `retrieveAsString`, and the string. -/
def retrieveAsString (b : Buffer) (len : ℕ) : Except Fault (Buffer × List NoInit) :=
  if len ≤ b.readableBytes then
    (b.retrieve len).map fun b' => (b', segment b.buffer b.readerIndex (b.readerIndex + len))
  else .error .assertion

/-- A write of `data` to `beginWrite()`, and `hasWritten`. -/
def write (b : Buffer) (data : List UInt8) : Except Fault Buffer :=
  hasWritten { b with buffer := overwrite b.buffer b.writerIndex (data.map some) } data.length

def unwrite (b : Buffer) (len : ℕ) : Except Fault Buffer :=
  if len ≤ b.readableBytes then .ok { b with writerIndex := subSize b.writerIndex len }
  else .error .assertion

def prepend (b : Buffer) (data : List UInt8) : Except Fault Buffer :=
  if data.length ≤ b.prependableBytes then
    let readerIndex := subSize b.readerIndex data.length
    .ok { b with
      buffer := overwrite b.buffer readerIndex (data.map some)
      readerIndex := readerIndex }
  else .error .assertion

/-- `shrink`: the readable bytes in a new buffer, which is swapped in. -/
def shrink (b : Buffer) (reserve : ℕ) : Except Fault Buffer := do
  let other ← (ofSize kInitialSize).ensureWritableBytes (addSize b.readableBytes reserve)
  other.appendView b.toStringView

namespace Valid

variable {b : Buffer} (h : Valid b)

include h

/-- The string is what is dropped. -/
theorem retrieveAsString {n : ℕ} (hn : n ≤ b.readableBytes)
    (hroom : n < b.readableBytes ∨ kCheapPrepend ≤ b.buffer.length) :
    ∃ b', b.retrieveAsString n = .ok (b', b.toStringView.take n) ∧ Kept b b' ∧
      b'.toStringView = b.toStringView.drop n := by
  have hreader := h.reader_le
  have hreadable := h.readableBytes_eq
  obtain ⟨b', hretrieve, hkept, hview⟩ := h.retrieve hn hroom
  have hstring : segment b.buffer b.readerIndex (b.readerIndex + n) = b.toStringView.take n := by
    rw [h.toStringView_eq, take_segment]
    omega
  refine ⟨b', ?_, hkept, hview⟩
  unfold Buffer.retrieveAsString
  rw [if_pos hn, hretrieve, hstring]
  rfl

theorem unwrite {n : ℕ} (hn : n ≤ b.readableBytes) :
    ∃ b', b.unwrite n = .ok b' ∧ Kept b b' ∧
      b'.toStringView = b.toStringView.take (b.toStringView.length - n) := by
  have hreader := h.reader_le
  have hwriter := h.writer_le
  have hlength := h.length_lt
  have hreadable := h.readableBytes_eq
  have hindex : subSize b.writerIndex n = b.writerIndex - n := subSize_eq (by omega) (by omega)
  have hvalid : Valid { b with writerIndex := b.writerIndex - n } :=
    ⟨by show b.readerIndex ≤ b.writerIndex - n; omega,
      by show b.writerIndex - n ≤ b.buffer.length; omega, h.length_le⟩
  refine ⟨_, by rw [Buffer.unwrite, if_pos hn, hindex], .of_length_le hvalid (Nat.le_refl _), ?_⟩
  rw [hvalid.toStringView_eq, h.length_toStringView, h.toStringView_eq, take_segment (by omega)]
  show segment b.buffer b.readerIndex (b.writerIndex - n) = _
  congr 1
  omega

/-- What is put in front of the reader index is read first. -/
theorem prepend {data : List UInt8} (hn : data.length ≤ b.prependableBytes) :
    ∃ b', b.prepend data = .ok b' ∧ Kept b b' ∧ b'.toStringView = data.map some ++ b.toStringView := by
  have hreader := h.reader_le
  have hwriter := h.writer_le
  have hlength := h.length_lt
  have hfront : data.length ≤ b.readerIndex := hn
  have hdata : (data.map some).length = data.length := List.length_map ..
  have hindex : subSize b.readerIndex data.length = b.readerIndex - data.length :=
    subSize_eq hfront (by omega)
  have hsum : b.readerIndex - data.length + (data.map some).length = b.readerIndex := by omega
  let b' : Buffer :=
    { b with
      buffer := overwrite b.buffer (b.readerIndex - data.length) (data.map some)
      readerIndex := b.readerIndex - data.length }
  have hsize : b'.buffer.length = b.buffer.length := length_overwrite (by omega)
  have hvalid : Valid b' := by
    refine ⟨?_, ?_, ?_⟩
    · show b.readerIndex - data.length ≤ b.writerIndex
      omega
    · rw [hsize]
      exact hwriter
    · rw [hsize]
      exact h.length_le
  refine ⟨b', by rw [Buffer.prepend, if_pos hn, hindex],
    .of_length_le hvalid (Nat.le_of_eq hsize.symm), ?_⟩
  have hcopy : segment b'.buffer (b.readerIndex - data.length) b.readerIndex = data.map some := by
    have hwithin : b.readerIndex - data.length ≤ b.buffer.length := by omega
    have hself : segment b'.buffer _ (_ + (data.map some).length) = _ := segment_overwrite_self hwithin
    rwa [hsum] at hself
  have hafter : segment b'.buffer b.readerIndex b.writerIndex =
      segment b.buffer b.readerIndex b.writerIndex := by
    have hwithin : b.readerIndex - data.length + (data.map some).length ≤ b.buffer.length := by omega
    have hbehind : segment b'.buffer _ b.writerIndex = _ := segment_overwrite_after hwithin
    rwa [hsum] at hbehind
  rw [hvalid.toStringView_eq, h.toStringView_eq]
  show segment b'.buffer (b.readerIndex - data.length) b.writerIndex = _
  rw [← segment_append (j := b.readerIndex) (by omega) hreader, hcopy, hafter]

/-- `shrink` keeps the readable bytes and makes room, or the new vector would be too large. -/
theorem shrink {reserve : ℕ} (hfits : b.readableBytes + reserve ≤ maxSize) :
    (∃ b', b.shrink reserve = .ok b' ∧ WellFormed b' ∧ b'.toStringView = b.toStringView ∧
        reserve ≤ b'.writableBytes) ∨
      b.shrink reserve = .error .lengthError := by
  have hnew : WellFormed (ofSize kInitialSize) := wellFormed_ofSize (by decide)
  have hsum : addSize b.readableBytes reserve = b.readableBytes + reserve := by
    unfold maxSize at hfits
    exact addSize_eq (by omega)
  unfold Buffer.shrink
  rw [hsum]
  rcases hnew.ensureWritableBytes hfits with ⟨other, hensured, hwf, hview, hroom⟩ | ⟨hfault, -⟩
  · left
    have hlength : b.toStringView.length = b.readableBytes := h.length_toStringView
    obtain ⟨b', hdone, hwf', hview', hwritable⟩ := hwf.written b.toStringView (by omega)
    have happend : other.appendView b.toStringView = .ok b' := by
      have hensured' : other.ensureWritableBytes b.toStringView.length = .ok other := by
        unfold Buffer.ensureWritableBytes
        rw [if_neg (by omega)]
        exact if_pos (by omega)
      unfold Buffer.appendView
      rw [hensured']
      exact hdone
    refine ⟨b', ?_, hwf', ?_, by omega⟩
    · rw [hensured]
      exact happend
    · rw [hview', hview, toStringView_ofSize, List.nil_append]
  · right
    rw [hfault]
    rfl

end Valid

theorem WellFormed.retrieveAll {b : Buffer} (h : WellFormed b) :
    WellFormed b.retrieveAll ∧ b.retrieveAll.toStringView = [] :=
  (h.valid.retrieveAll h.prepend_le).imp_left h.kept

theorem WellFormed.retrieveAsString {b : Buffer} (h : WellFormed b) {n : ℕ} (hn : n ≤ b.readableBytes) :
    ∃ b', b.retrieveAsString n = .ok (b', b.toStringView.take n) ∧ WellFormed b' ∧
      b'.toStringView = b.toStringView.drop n := by
  obtain ⟨b', hdone, hkept, hview⟩ := h.valid.retrieveAsString hn (.inr h.prepend_le)
  exact ⟨b', hdone, h.kept hkept, hview⟩

end Buffer

/-! ## Pools of buffers -/

/-- An operation on one buffer; `append` is that of a `string_view` too. -/
inductive BufferOp
  | append (data : Buf)
  | retrieve (len : ℕ)
  | retrieveUntil (stop : ℤ)
  | retrieveAll
  | retrieveAsString (len : ℕ)
  | ensureWritableBytes (len : ℕ)
  | write (data : Buf)
  | unwrite (len : ℕ)
  | prepend (data : Buf)
  | shrink (reserve : ℕ)
  deriving DecidableEq

namespace BufferOp

/-- The asserted precondition; and a size that is asked for is one of a vector. -/
def Precondition (b : Buffer) : BufferOp → Prop
  | .append _ | .retrieveAll => True
  | .retrieve len | .retrieveAsString len | .unwrite len => len ≤ b.readableBytes
  | .retrieveUntil stop => 0 ≤ stop ∧ stop ≤ b.readableBytes
  | .ensureWritableBytes len => len ≤ maxSize
  | .write data => data.buf.length ≤ b.writableBytes
  | .prepend data => data.buf.length ≤ b.prependableBytes
  | .shrink reserve => b.readableBytes + reserve ≤ maxSize

instance (b : Buffer) : DecidablePred (Precondition b)
  | .append _ | .retrieveAll => inferInstanceAs (Decidable True)
  | .retrieve len | .retrieveAsString len | .unwrite len =>
    inferInstanceAs (Decidable (len ≤ b.readableBytes))
  | .retrieveUntil stop => inferInstanceAs (Decidable (0 ≤ stop ∧ stop ≤ b.readableBytes))
  | .ensureWritableBytes len => inferInstanceAs (Decidable (len ≤ maxSize))
  | .write data => inferInstanceAs (Decidable (data.buf.length ≤ b.writableBytes))
  | .prepend data => inferInstanceAs (Decidable (data.buf.length ≤ b.prependableBytes))
  | .shrink reserve => inferInstanceAs (Decidable (b.readableBytes + reserve ≤ maxSize))

/-- The operation, and the string that it returns. -/
def call (b : Buffer) : BufferOp → Except Fault (Buffer × List NoInit)
  | .append data => (b.append data.buf).map (·, [])
  | .retrieve len => (b.retrieve len).map (·, [])
  | .retrieveUntil stop => (b.retrieveUntil stop).map (·, [])
  | .retrieveAll => .ok (b.retrieveAll, [])
  | .retrieveAsString len => b.retrieveAsString len
  | .ensureWritableBytes len => (b.ensureWritableBytes len).map (·, [])
  | .write data => (b.write data.buf).map (·, [])
  | .unwrite len => (b.unwrite len).map (·, [])
  | .prepend data => (b.prepend data.buf).map (·, [])
  | .shrink reserve => (b.shrink reserve).map (·, [])

/-- What it does to a queue of bytes, and what it returns. -/
def onQueue (q : List NoInit) : BufferOp → List NoInit × List NoInit
  | .append data | .write data => (q ++ data.buf.map some, [])
  | .retrieve len => (q.drop len, [])
  | .retrieveUntil stop => (q.drop stop.toNat, [])
  | .retrieveAll => ([], [])
  | .retrieveAsString len => (q.drop len, q.take len)
  | .ensureWritableBytes _ | .shrink _ => (q, [])
  | .unwrite len => (q.take (q.length - len), [])
  | .prepend data => (data.buf.map some ++ q, [])

/-- The room that it leaves. -/
def Reserved (b : Buffer) : BufferOp → Prop
  | .ensureWritableBytes len | .shrink len => len ≤ b.writableBytes
  | _ => True

end BufferOp

namespace BufferOp

/-- An operation that empties the buffer resets its indices, to a place that the vector has to have. -/
def FindsPlace (b : Buffer) : BufferOp → Prop
  | .retrieve len | .retrieveAsString len => len < b.readableBytes ∨ Buffer.kCheapPrepend ≤ b.buffer.length
  | .retrieveUntil stop => stop.toNat < b.readableBytes ∨ Buffer.kCheapPrepend ≤ b.buffer.length
  | .retrieveAll => Buffer.kCheapPrepend ≤ b.buffer.length
  | _ => True

instance (b : Buffer) : DecidablePred (FindsPlace b)
  | .retrieve len | .retrieveAsString len =>
    inferInstanceAs (Decidable (len < b.readableBytes ∨ Buffer.kCheapPrepend ≤ b.buffer.length))
  | .retrieveUntil stop =>
    inferInstanceAs (Decidable (stop.toNat < b.readableBytes ∨ Buffer.kCheapPrepend ≤ b.buffer.length))
  | .retrieveAll => inferInstanceAs (Decidable (Buffer.kCheapPrepend ≤ b.buffer.length))
  | .append _ | .ensureWritableBytes _ | .write _ | .unwrite _ | .prepend _ | .shrink _ =>
    inferInstanceAs (Decidable True)

theorem findsPlace_of_le {b : Buffer} (op : BufferOp) (h : Buffer.kCheapPrepend ≤ b.buffer.length) :
    op.FindsPlace b := by
  cases op with
  | retrieve | retrieveAsString | retrieveUntil => exact .inr h
  | retrieveAll => exact h
  | _ => trivial

/-- Where it does not find the place it resets the indices all the same. -/
theorem call_of_not_findsPlace {b : Buffer} {op : BufferOp} (hpre : op.Precondition b)
    (hplace : ¬ op.FindsPlace b) :
    b.buffer.length < Buffer.kCheapPrepend ∧ ∃ returned, op.call b = .ok (b.retrieveAll, returned) := by
  -- All readable bytes are retrieved.
  have hretrieve : ∀ len, len ≤ b.readableBytes → ¬ len < b.readableBytes →
      b.retrieve len = .ok b.retrieveAll := by
    intro len hle hlt
    unfold Buffer.retrieve
    rw [if_pos hle, if_neg hlt]
  cases op with
  | retrieve len =>
    obtain ⟨hlt, hlength⟩ := not_or.mp hplace
    exact ⟨Nat.lt_of_not_le hlength, [], by rw [call, hretrieve len hpre hlt]; rfl⟩
  | retrieveUntil stop =>
    obtain ⟨hlt, hlength⟩ := not_or.mp hplace
    have hrange : 0 ≤ stop ∧ stop ≤ b.readableBytes := hpre
    refine ⟨Nat.lt_of_not_le hlength, [], ?_⟩
    rw [call, Buffer.retrieveUntil, if_pos hrange, hretrieve stop.toNat (by omega) hlt]
    rfl
  | retrieveAll => exact ⟨Nat.lt_of_not_le hplace, [], rfl⟩
  | retrieveAsString len =>
    obtain ⟨hlt, hlength⟩ := not_or.mp hplace
    have hle : len ≤ b.readableBytes := hpre
    refine ⟨Nat.lt_of_not_le hlength, segment b.buffer b.readerIndex (b.readerIndex + len), ?_⟩
    rw [call, Buffer.retrieveAsString, if_pos hle, hretrieve len hle hlt]
    rfl
  | append | ensureWritableBytes | write | unwrite | prepend | shrink => exact absurd trivial hplace

end BufferOp

/-- Every operation does to the readable bytes what it does to a queue, or a size is too large. -/
theorem Buffer.Valid.call {b : Buffer} (h : b.Valid) {op : BufferOp} (hpre : op.Precondition b)
    (hplace : op.FindsPlace b) :
    (∃ b', op.call b = .ok (b', (op.onQueue b.toStringView).2) ∧ b.Kept b' ∧
        b'.toStringView = (op.onQueue b.toStringView).1 ∧ op.Reserved b') ∨
      op.call b = .error .lengthError := by
  cases op with
  | append data =>
    rcases h.append data.len_le with ⟨b', hdone, hkept, hview⟩ | hfault
    · exact .inl ⟨b', by rw [BufferOp.call, hdone]; rfl, hkept, hview, trivial⟩
    · exact .inr (by rw [BufferOp.call, hfault]; rfl)
  | retrieve len =>
    obtain ⟨b', hdone, hkept, hview⟩ := h.retrieve hpre hplace
    exact .inl ⟨b', by rw [BufferOp.call, hdone]; rfl, hkept, hview, trivial⟩
  | retrieveUntil stop =>
    have hrange : 0 ≤ stop ∧ stop ≤ b.readableBytes := hpre
    have hle : stop.toNat ≤ b.readableBytes := by omega
    obtain ⟨b', hdone, hkept, hview⟩ := h.retrieve hle hplace
    refine .inl ⟨b', ?_, hkept, hview, trivial⟩
    rw [BufferOp.call, Buffer.retrieveUntil, if_pos hrange, hdone]
    rfl
  | retrieveAll =>
    obtain ⟨hkept, hview⟩ := h.retrieveAll hplace
    exact .inl ⟨b.retrieveAll, rfl, hkept, hview, trivial⟩
  | retrieveAsString len =>
    obtain ⟨b', hdone, hkept, hview⟩ := h.retrieveAsString hpre hplace
    exact .inl ⟨b', hdone, hkept, hview, trivial⟩
  | ensureWritableBytes len =>
    rcases h.ensureWritableBytes hpre with ⟨b', hdone, hkept, hview, hroom⟩ | ⟨hfault, -⟩
    · exact .inl ⟨b', by rw [BufferOp.call, hdone]; rfl, hkept, hview, hroom⟩
    · exact .inr (by rw [BufferOp.call, hfault]; rfl)
  | write data =>
    have hlength : (data.buf.map some).length = data.buf.length := List.length_map ..
    obtain ⟨b', hdone, hkept, hview, -⟩ := h.written (data.buf.map some) (by rw [hlength]; exact hpre)
    rw [hlength] at hdone
    exact .inl ⟨b', by rw [BufferOp.call, Buffer.write, hdone]; rfl, hkept, hview, trivial⟩
  | unwrite len =>
    obtain ⟨b', hdone, hkept, hview⟩ := h.unwrite hpre
    exact .inl ⟨b', by rw [BufferOp.call, hdone]; rfl, hkept, hview, trivial⟩
  | prepend data =>
    obtain ⟨b', hdone, hkept, hview⟩ := h.prepend hpre
    exact .inl ⟨b', by rw [BufferOp.call, hdone]; rfl, hkept, hview, trivial⟩
  | shrink reserve =>
    rcases h.shrink hpre with ⟨b', hdone, hwf, hview, hroom⟩ | hfault
    · exact .inl ⟨b', by rw [BufferOp.call, hdone]; rfl, ⟨hwf.valid, fun _ => hwf.prepend_le⟩, hview, hroom⟩
    · exact .inr (by rw [BufferOp.call, hfault]; rfl)

/-- A buffer that has not been moved from has the place. -/
theorem Buffer.WellFormed.call {b : Buffer} (h : b.WellFormed) {op : BufferOp}
    (hpre : op.Precondition b) :
    (∃ b', op.call b = .ok (b', (op.onQueue b.toStringView).2) ∧ b'.WellFormed ∧
        b'.toStringView = (op.onQueue b.toStringView).1 ∧ op.Reserved b') ∨
      op.call b = .error .lengthError := by
  rcases h.valid.call hpre (op.findsPlace_of_le h.prepend_le) with ⟨b', hdone, hkept, hrest⟩ | hfault
  · exact .inl ⟨b', hdone, h.kept hkept, hrest⟩
  · exact .inr hfault

/-- Buffers by name, what the last operation returned, and how it failed, if it did. -/
structure BufferPool (ι : Type*) where
  buffers : ι → Buffer
  returned : List NoInit
  fault : Option Fault

namespace BufferPool

variable {ι : Type*} [DecidableEq ι]

/-- Constructed buffers. -/
def initial (sizes : ι → ℕ) : BufferPool ι where
  buffers i := .ofSize (sizes i)
  returned := []
  fault := none

/-- `swap`. -/
def swap (p : BufferPool ι) (i j : ι) : BufferPool ι :=
  { p with
    buffers := Function.update (Function.update p.buffers i (p.buffers j)) j (p.buffers i)
    returned := [] }

/-- The move assignment: a `swap`, and another one with a new buffer. -/
def moveAssign (p : BufferPool ι) (i j : ι) : BufferPool ι :=
  { p.swap i j with
    buffers := Function.update (p.swap i j).buffers j (.ofSize Buffer.kInitialSize) }

/-- The steps of a run. -/
inductive Op (ι : Type*)
  | on (i : ι) (op : BufferOp)
  | swap (i j : ι)
  | moveAssign (i j : ι)
  deriving DecidableEq

/-- One step. -/
def step (p : BufferPool ι) (op : Op ι) : Option (BufferPool ι) :=
  if p.fault = none then
    match op with
    | .on i op =>
      if op.Precondition (p.buffers i) then
        match op.call (p.buffers i) with
        | .ok (b, returned) =>
          some { p with buffers := Function.update p.buffers i b, returned := returned }
        | .error .lengthError => none
        | .error .assertion => some { p with fault := some .assertion }
      else none
    | .swap i j => some (p.swap i j)
    | .moveAssign i j => if i ≠ j then some (p.moveAssign i j) else none
  else none

end BufferPool

/-- The queues that a pool is for. -/
structure ByteQueues (ι : Type*) where
  queues : ι → List NoInit
  returned : List NoInit

namespace ByteQueues

variable {ι : Type*} [DecidableEq ι]

def empty : ByteQueues ι := ⟨fun _ => [], []⟩

/-- What an operation does to them. -/
def next (q : ByteQueues ι) : BufferPool.Op ι → ByteQueues ι
  | .on i op =>
    { queues := Function.update q.queues i (op.onQueue (q.queues i)).1
      returned := (op.onQueue (q.queues i)).2 }
  | .swap i j =>
    { queues := Function.update (Function.update q.queues i (q.queues j)) j (q.queues i)
      returned := [] }
  | .moveAssign i j =>
    { queues := Function.update (Function.update q.queues i (q.queues j)) j []
      returned := [] }

end ByteQueues

namespace BufferPool

variable {ι : Type*} [DecidableEq ι] {p p' : BufferPool ι} {q : ByteQueues ι}

/-- Every buffer is valid, the readable bytes are those of the queues, and no assertion has failed. -/
structure Represents (p : BufferPool ι) (q : ByteQueues ι) : Prop where
  valid : ∀ i, (p.buffers i).Valid
  contents : ∀ i, (p.buffers i).toStringView = q.queues i
  returned : p.returned = q.returned
  asserted : p.fault = none

/-- Every buffer has the place that `retrieveAll` resets the indices to. -/
def HasPlaces (p : BufferPool ι) : Prop := ∀ i, Buffer.kCheapPrepend ≤ (p.buffers i).buffer.length

/-- What a step needs to find the place, if it empties a buffer. -/
def FindsPlace (p : BufferPool ι) : Op ι → Prop
  | .on i op => op.FindsPlace (p.buffers i)
  | _ => True

instance (p : BufferPool ι) : DecidablePred p.FindsPlace
  | .on i op => inferInstanceAs (Decidable (op.FindsPlace (p.buffers i)))
  | .swap _ _ | .moveAssign _ _ => inferInstanceAs (Decidable True)

/-- The representation invariant holds of every buffer, the readable bytes are those of the queues, and
no assertion has failed. -/
structure Implements (p : BufferPool ι) (q : ByteQueues ι) : Prop where
  wellFormed : ∀ i, (p.buffers i).WellFormed
  contents : ∀ i, (p.buffers i).toStringView = q.queues i
  returned : p.returned = q.returned
  asserted : p.fault = none

omit [DecidableEq ι] in
theorem implements_initial {sizes : ι → ℕ} (hsizes : ∀ i, Buffer.kCheapPrepend + sizes i ≤ maxSize) :
    Implements (initial sizes) .empty where
  wellFormed i := Buffer.wellFormed_ofSize (hsizes i)
  contents _ := Buffer.toStringView_ofSize
  returned := rfl
  asserted := rfl

omit [DecidableEq ι] in
theorem Implements.represents (h : Implements p q) : Represents p q :=
  ⟨fun i => (h.wellFormed i).valid, h.contents, h.returned, h.asserted⟩

omit [DecidableEq ι] in
theorem Implements.hasPlaces (h : Implements p q) : HasPlaces p := fun i => (h.wellFormed i).prepend_le

omit [DecidableEq ι] in
theorem Represents.implements (h : Represents p q) (hplaces : HasPlaces p) : Implements p q :=
  ⟨fun i => (h.valid i).wellFormed (hplaces i), h.contents, h.returned, h.asserted⟩

/-- A buffer of the pool is replaced by one with the bytes `xs`. -/
theorem Represents.update (h : Represents p q) (i : ι) {b : Buffer} (hvalid : b.Valid) {xs : List NoInit}
    (hview : b.toStringView = xs) (returned : List NoInit) :
    Represents { p with buffers := Function.update p.buffers i b, returned := returned }
      { queues := Function.update q.queues i xs, returned := returned } where
  valid k := by
    show (Function.update p.buffers i b k).Valid
    by_cases hk : k = i
    · rw [hk, Function.update_self]
      exact hvalid
    · rw [Function.update_of_ne hk]
      exact h.valid k
  contents k := by
    show (Function.update p.buffers i b k).toStringView = Function.update q.queues i xs k
    by_cases hk : k = i
    · rw [hk, Function.update_self, Function.update_self]
      exact hview
    · rw [Function.update_of_ne hk, Function.update_of_ne hk]
      exact h.contents k
  returned := rfl
  asserted := h.asserted

theorem HasPlaces.update (h : HasPlaces p) (i : ι) {b : Buffer} (hb : Buffer.kCheapPrepend ≤ b.buffer.length)
    (returned : List NoInit) :
    HasPlaces { p with buffers := Function.update p.buffers i b, returned := returned } := by
  intro k
  show _ ≤ (Function.update p.buffers i b k).buffer.length
  by_cases hk : k = i
  · rw [hk, Function.update_self]
    exact hb
  · rw [Function.update_of_ne hk]
    exact h k

theorem Represents.swap (h : Represents p q) (i j : ι) : Represents (p.swap i j) (q.next (.swap i j)) :=
  (h.update i (h.valid j) (h.contents j) []).update j (h.valid i) (h.contents i) []

theorem HasPlaces.swap (h : HasPlaces p) (i j : ι) : HasPlaces (p.swap i j) :=
  (h.update i (h j) []).update j (h i) []

/-- What stands for a buffer that is replaced by an empty one, after a `swap`. -/
theorem Represents.replace (h : Represents p q) (i j : ι) {b : Buffer} (hvalid : b.Valid)
    (hview : b.toStringView = []) :
    Represents { p.swap i j with buffers := Function.update (p.swap i j).buffers j b }
      (q.next (.moveAssign i j)) := by
  have hmoved := (h.swap i j).update j hvalid hview []
  have hqueues : Function.update (q.next (.swap i j)).queues j [] = (q.next (.moveAssign i j)).queues :=
    Function.update_idem ..
  rwa [hqueues] at hmoved

/-- A step does what it does to the queues, and leaves the room that it asks for. -/
theorem Represents.step (h : Represents p q) {op : Op ι} (hplace : p.FindsPlace op)
    (hs : p.step op = some p') :
    Represents p' (q.next op) ∧ (HasPlaces p → HasPlaces p') ∧
      ∀ i op', op = .on i op' → op'.Reserved (p'.buffers i) := by
  unfold BufferPool.step at hs
  rw [if_pos h.asserted] at hs
  cases op with
  | on i op =>
    dsimp only at hs
    split_ifs at hs with hpre
    rcases (h.valid i).call hpre hplace with ⟨b, hdone, hkept, hview, hroom⟩ | hfault
    · rw [hdone] at hs
      cases hs
      refine ⟨?_, fun hplaces => hplaces.update i (hkept.prepend_le (hplaces i)) _, ?_⟩
      · have hupdated := h.update i hkept.valid hview (op.onQueue (p.buffers i).toStringView).2
        rw [h.contents] at hupdated ⊢
        exact hupdated
      · rintro k op' ⟨⟩
        show op.Reserved (Function.update p.buffers i b i)
        rw [Function.update_self]
        exact hroom
    · rw [hfault] at hs
      cases hs
  | swap i j =>
    cases hs
    exact ⟨h.swap i j, fun hplaces => hplaces.swap i j, fun _ _ hop => nomatch hop⟩
  | moveAssign i j =>
    dsimp only at hs
    split_ifs at hs with hij
    cases hs
    have hnew : (Buffer.ofSize Buffer.kInitialSize).WellFormed := Buffer.wellFormed_ofSize (by decide)
    exact ⟨h.replace i j hnew.valid Buffer.toStringView_ofSize,
      fun hplaces => (hplaces.swap i j).update j hnew.prepend_le [], fun _ _ hop => nomatch hop⟩

omit [DecidableEq ι] in
theorem HasPlaces.findsPlace (h : HasPlaces p) (op : Op ι) : p.FindsPlace op := by
  cases op with
  | on i op => exact op.findsPlace_of_le (h i)
  | _ => trivial

/-- A step keeps the representation invariant. -/
theorem Implements.step (h : Implements p q) {op : Op ι} (hs : p.step op = some p') :
    Implements p' (q.next op) ∧ ∀ i op', op = .on i op' → op'.Reserved (p'.buffers i) := by
  obtain ⟨hrepresents, hplaces, hreserved⟩ := h.represents.step (h.hasPlaces.findsPlace op) hs
  exact ⟨hrepresents.implements (hplaces h.hasPlaces), hreserved⟩

/-- Every run of a pool does to the readable bytes what it does to queues, with the representation
invariant kept and no assertion failed; `ensureWritableBytes` and `shrink` leave the room that they are
asked for. -/
theorem implements_of_run (sizes : ι → ℕ) (hsizes : ∀ i, Buffer.kCheapPrepend + sizes i ≤ maxSize)
    (ops : List (Op ι)) (p : BufferPool ι) (hr : Machine.run step (initial sizes) ops = some p) :
    Implements p (ops.foldl ByteQueues.next .empty) ∧
      ∀ i op p', p.step (.on i op) = some p' → op.Reserved (p'.buffers i) := by
  have hstep : ∀ (p : BufferPool ι) q op p', Implements p q → p.step op = some p' →
      Implements p' (q.next op) := fun _ _ _ _ h hs => (h.step hs).1
  have himplements := Machine.run_refines hstep (implements_initial hsizes) hr
  exact ⟨himplements, fun i op p' hs => (himplements.step hs).2 i op rfl⟩

/-- Two buffers, one of no initial size: the bytes come out in order, after what was put in front. -/
theorem implements_two_buffers :
    ∃ p : BufferPool Bool,
      Machine.run step (initial fun i => if i then 0 else 16)
        [.on true (.append ⟨[1, 2, 3], by decide⟩), .on true (.retrieve 1),
          .on true (.prepend ⟨[7], by decide⟩), .swap true false, .on false (.unwrite 1),
          .moveAssign true false, .on true (.shrink 4)] = some p ∧
      (p.buffers true).toStringView = [some 7, some 2] ∧ p.fault = none := by
  have hruns : (Machine.run step (initial fun i : Bool => if i then 0 else 16)
      [.on true (.append ⟨[1, 2, 3], by decide⟩), .on true (.retrieve 1),
        .on true (.prepend ⟨[7], by decide⟩), .swap true false, .on false (.unwrite 1),
        .moveAssign true false, .on true (.shrink 4)]).isSome = true := by
    decide +kernel
  obtain ⟨p, hr⟩ := Option.isSome_iff_exists.mp hruns
  have himplements := (implements_of_run (fun i : Bool => if i then 0 else 16) (by decide) _ p hr).1
  exact ⟨p, hr, himplements.contents true, himplements.asserted⟩

end BufferPool

end Hulatang
