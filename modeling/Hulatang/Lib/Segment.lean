import Mathlib.Data.List.TakeDrop

/-!
# Segments of a list

A list as a piece of memory: `segment xs i j` is what stands from the place `i` up to the place `j`,
and `overwrite xs i ys` is the list with `ys` copied to the place `i`. Copies stay within the list; what
is copied is read back, and what stands outside the copy is unchanged.
-/

namespace Hulatang

variable {α : Type*}

/-- What stands from the place `i` up to the place `j`. -/
def segment (xs : List α) (i j : ℕ) : List α := (xs.take j).drop i

/-- The list with `ys` copied to the place `i`. -/
def overwrite (xs : List α) (i : ℕ) (ys : List α) : List α :=
  xs.take i ++ ys ++ xs.drop (i + ys.length)

variable {xs ys : List α} {i j k n : ℕ}

theorem length_segment (hj : j ≤ xs.length) : (segment xs i j).length = j - i := by
  simp only [segment, List.length_drop, List.length_take]
  omega

theorem length_overwrite (h : i + ys.length ≤ xs.length) :
    (overwrite xs i ys).length = xs.length := by
  simp only [overwrite, List.length_append, List.length_take, List.length_drop]
  omega

@[simp] theorem segment_self : segment xs i i = [] := by
  refine List.drop_eq_nil_of_le ?_
  simp only [List.length_take]
  omega

/-- Neighbouring segments are one. -/
theorem segment_append (hij : i ≤ j) (hjk : j ≤ k) :
    segment xs i j ++ segment xs j k = segment xs i k := by
  have htake : xs.take k = xs.take j ++ (xs.take k).drop j := by
    have hmin : (xs.take k).take j = xs.take j := by rw [List.take_take, Nat.min_eq_left hjk]
    rw [← hmin, List.take_append_drop]
  -- Beyond the end of the list the second segment is empty.
  by_cases hj : j ≤ xs.length
  · have hlength : i ≤ (xs.take j).length := by
      rw [List.length_take]
      omega
    show _ = (xs.take k).drop i
    rw [htake, List.drop_append_of_le_length hlength]
    rfl
  · have hk : xs.length ≤ k := by omega
    have hnil : segment xs j k = [] := by
      refine List.drop_eq_nil_of_le ?_
      rw [List.length_take]
      omega
    rw [hnil, List.append_nil]
    unfold segment
    rw [List.take_of_length_le (by omega), List.take_of_length_le hk]

/-- What is left of a segment. -/
theorem drop_segment : (segment xs i j).drop n = segment xs (i + n) j := by
  unfold segment
  rw [List.drop_drop]

/-- What stands before the end of a list does not see what follows it. -/
theorem segment_append_left (zs : List α) (hj : j ≤ xs.length) :
    segment (xs ++ zs) i j = segment xs i j := by
  unfold segment
  rw [List.take_append_of_le_length hj]

/-- A list in the middle of another one. -/
theorem segment_middle (pre mid rest : List α) :
    segment (pre ++ mid ++ rest) pre.length (pre.length + mid.length) = mid := by
  have hlength : pre.length + mid.length = (pre ++ mid).length := List.length_append.symm
  unfold segment
  rw [hlength, List.take_left, List.drop_left]

/-- A copy is read back. -/
theorem segment_overwrite_self (h : i ≤ xs.length) :
    segment (overwrite xs i ys) i (i + ys.length) = ys := by
  have hlength : (xs.take i).length = i := by
    rw [List.length_take]
    omega
  have htake : (overwrite xs i ys).take (i + ys.length) = xs.take i ++ ys := by
    refine List.take_left' ?_
    rw [List.length_append, hlength]
  unfold segment
  rw [htake]
  exact List.drop_left' hlength

/-- What stands before a copy is unchanged. -/
theorem segment_overwrite_before (hj : j ≤ i) (hi : i ≤ xs.length) :
    segment (overwrite xs i ys) k j = segment xs k j := by
  have hlength : j ≤ (xs.take i).length := by
    rw [List.length_take]
    omega
  unfold segment overwrite
  rw [List.append_assoc, List.take_append_of_le_length hlength, List.take_take, Nat.min_eq_left hj]

/-- So is what stands behind it. -/
theorem segment_overwrite_after (h : i + ys.length ≤ xs.length) :
    segment (overwrite xs i ys) (i + ys.length) j = segment xs (i + ys.length) j := by
  have hlength : (xs.take i ++ ys).length = i + ys.length := by
    rw [List.length_append, List.length_take]
    omega
  unfold segment overwrite
  rw [List.drop_take, List.drop_take, ← hlength, List.drop_left, hlength]

/-- What a segment begins with. -/
theorem take_segment (hn : i + n ≤ j) : (segment xs i j).take n = segment xs i (i + n) := by
  unfold segment
  rw [List.drop_take, List.drop_take, List.take_take]
  congr 1
  omega

end Hulatang
