import Mathlib.Data.List.Basic

/-!
# The first and the last occurrence

A text is cut at the first or at the last element of a kind. `List.findIdx?` finds the first one, and
`lastIdx?` the last one; that a text is `l ++ x :: r`, with nothing of the kind in `l` or in `r`, says
which one is found.
-/

namespace Hulatang

variable {α : Type*} {p q : α → Bool} {x : α} {l r xs : List α}

/-- There is no such element, or a first one. -/
theorem exists_first_or_forall (p : α → Bool) (xs : List α) :
    (∀ y ∈ xs, p y = false) ∨ ∃ l x r, xs = l ++ x :: r ∧ (∀ y ∈ l, p y = false) ∧ p x = true := by
  induction xs with
  | nil => exact .inl fun y hy => absurd hy List.not_mem_nil
  | cons x xs ih =>
    cases hx : p x with
    | true => exact .inr ⟨[], x, xs, rfl, fun y hy => absurd hy List.not_mem_nil, hx⟩
    | false =>
      rcases ih with hnone | ⟨l, z, r, rfl, hl, hz⟩
      · exact .inl (List.forall_mem_cons.mpr ⟨hx, hnone⟩)
      · exact .inr ⟨x :: l, z, r, rfl, List.forall_mem_cons.mpr ⟨hx, hl⟩, hz⟩

theorem findIdx?_eq_none (h : ∀ y ∈ xs, p y = false) : xs.findIdx? p = none :=
  List.findIdx?_eq_none_iff.mpr h

theorem findIdx?_append_cons (hl : ∀ y ∈ l, p y = false) (hx : p x = true) :
    (l ++ x :: r).findIdx? p = some l.length := by
  rw [List.findIdx?_append, findIdx?_eq_none hl, List.findIdx?_cons, hx]
  simp

/-- A text is cut at its first element of a kind in one way. -/
theorem append_cons_inj_of_first {x' : α} {l' r' : List α} (hl : ∀ y ∈ l, p y = false)
    (hl' : ∀ y ∈ l', p y = false) (hx : p x = true) (hx' : p x' = true) (h : l ++ x :: r = l' ++ x' :: r') :
    l = l' ∧ x = x' ∧ r = r' := by
  have hplace := congrArg (List.findIdx? p) h
  rw [findIdx?_append_cons hl hx, findIdx?_append_cons hl' hx'] at hplace
  obtain ⟨hfront, hrest⟩ := List.append_inj h (Option.some.inj hplace)
  obtain ⟨hhead, htail⟩ := List.cons.inj hrest
  exact ⟨hfront, hhead, htail⟩

/-- The least of the first places of two kinds is the first place of either. -/
theorem merge_findIdx? (p q : α → Bool) (xs : List α) :
    Option.merge min (xs.findIdx? p) (xs.findIdx? q) = xs.findIdx? fun y => p y || q y := by
  induction xs with
  | nil => rfl
  | cons x xs ih =>
    rw [List.findIdx?_cons, List.findIdx?_cons, List.findIdx?_cons, ← ih]
    cases hp : p x <;> cases hq : q x <;> cases xs.findIdx? p <;> cases xs.findIdx? q <;>
      simp [Nat.add_min_add_right]

/-- The place of the last element of a kind. -/
def lastIdx? (p : α → Bool) : List α → Option ℕ
  | [] => none
  | x :: xs => match lastIdx? p xs with
    | some i => some (i + 1)
    | none => if p x then some 0 else none

theorem lastIdx?_eq_none (h : ∀ y ∈ xs, p y = false) : lastIdx? p xs = none := by
  induction xs with
  | nil => rfl
  | cons x xs ih =>
    obtain ⟨hx, hxs⟩ := List.forall_mem_cons.mp h
    rw [lastIdx?, ih hxs, hx]
    rfl

theorem lastIdx?_append_cons (hr : ∀ y ∈ r, p y = false) (hx : p x = true) :
    lastIdx? p (l ++ x :: r) = some l.length := by
  induction l with
  | nil =>
    rw [List.nil_append, lastIdx?, lastIdx?_eq_none hr, hx]
    rfl
  | cons y l ih => rw [List.cons_append, lastIdx?, ih, List.length_cons]

/-- There is no such element, or a last one. -/
theorem exists_last_or_forall (p : α → Bool) (xs : List α) :
    (∀ y ∈ xs, p y = false) ∨ ∃ l x r, xs = l ++ x :: r ∧ (∀ y ∈ r, p y = false) ∧ p x = true := by
  rcases exists_first_or_forall p xs.reverse with hnone | ⟨l, x, r, hxs, hl, hx⟩
  · exact .inl fun y hy => hnone y (List.mem_reverse.mpr hy)
  · refine .inr ⟨r.reverse, x, l.reverse, ?_, fun y hy => hl y (List.mem_reverse.mp hy), hx⟩
    rw [← List.reverse_reverse xs, hxs]
    simp

/-- Behind the first `c` there is a `d`. -/
theorem pair_sublist_append_cons_iff {c d : α} (hl : c ∉ l) : [c, d].Sublist (l ++ c :: r) ↔ d ∈ r := by
  induction l with
  | nil => rw [List.nil_append, List.cons_sublist_cons, List.singleton_sublist]
  | cons x l ih =>
    rw [List.mem_cons, not_or] at hl
    obtain ⟨hx, hl⟩ := hl
    rw [List.cons_append, List.cons_sublist_cons', ih hl, or_iff_left]
    exact fun h => hx h.1

end Hulatang
