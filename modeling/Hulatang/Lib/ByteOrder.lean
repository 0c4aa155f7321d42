import Mathlib.Data.Nat.Notation

/-!
# The bytes of a word

A word of any width in memory, its least significant byte first or last. A word that has the bytes of another
one the other way around looks in one order as that one does in the other (`bytes_of_reversed`).
-/

namespace Hulatang

/-- The orders of the bytes of a word. -/
inductive Endian
  | little
  | big
  deriving DecidableEq

variable {n count : ℕ} {x y : BitVec n}

/-- A byte of a word, the least significant one being number zero. -/
def byteAt (x : BitVec n) (k : ℕ) : UInt8 := ⟨x.extractLsb' (8 * k) 8⟩

namespace Endian

def other : Endian → Endian
  | little => big
  | big => little

/-- The `count` lowest bytes of a word, in order. -/
def bytes (order : Endian) (count : ℕ) (x : BitVec n) : List UInt8 :=
  match order with
  | little => (List.range count).map (byteAt x)
  | big => ((List.range count).map (byteAt x)).reverse

@[simp] theorem length_bytes (order : Endian) (count : ℕ) (x : BitVec n) :
    (order.bytes count x).length = count := by
  cases order with
  | little => simp [bytes]
  | big => simp [bytes]

theorem eq_other_of_ne {order order' : Endian} (h : order ≠ order') : order' = order.other := by
  cases order <;> cases order' <;> first | rfl | exact absurd rfl h

/-- The bytes of a word, reversed. -/
theorem bytes_of_reversed (h : ∀ k < count, byteAt y k = byteAt x (count - 1 - k)) (order : Endian) :
    order.bytes count y = order.other.bytes count x := by
  have hreverse : (List.range count).map (byteAt y) = ((List.range count).map (byteAt x)).reverse := by
    refine List.ext_getElem (by simp) fun k hk _ => ?_
    have hcount : k < count := by simpa using hk
    simpa using h k hcount
  cases order with
  | little => exact hreverse
  | big =>
    show ((List.range count).map (byteAt y)).reverse = (List.range count).map (byteAt x)
    rw [hreverse, List.reverse_reverse]

end Endian

end Hulatang
