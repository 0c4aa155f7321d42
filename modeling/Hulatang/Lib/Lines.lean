import Mathlib.Data.List.Infix

/-!
# Lines that end in a pair

A text is cut into lines by a separator of two different elements `a b`. `findPair` finds the first
separator, and `lines` splits a text into the lines that are terminated and what stands behind the last
separator, none of which has a separator (`pairFree_lines`).
-/

namespace Hulatang

variable {α : Type*}

/-- No `a` is followed by `b`. -/
def PairFree (a b : α) (xs : List α) : Prop := ¬ [a, b] <:+: xs

/-- Lines, each with its separator. -/
def unlines (a b : α) (ls : List (List α)) : List α := ls.flatMap (· ++ [a, b])

@[simp] theorem unlines_nil (a b : α) : unlines a b [] = [] := rfl

@[simp] theorem unlines_cons (a b : α) (l : List α) (ls : List (List α)) :
    unlines a b (l :: ls) = l ++ a :: b :: unlines a b ls := by
  simp [unlines]

@[simp] theorem unlines_append (a b : α) (ls ms : List (List α)) :
    unlines a b (ls ++ ms) = unlines a b ls ++ unlines a b ms := List.flatMap_append

/-- Every line takes up at least its separator. -/
theorem length_le_length_unlines (a b : α) (ls : List (List α)) :
    ls.length ≤ (unlines a b ls).length := by
  induction ls with
  | nil => exact Nat.zero_le _
  | cons l ls ih =>
    rw [unlines_cons, List.length_append, List.length_cons, List.length_cons, List.length_cons]
    omega

/-! ## Texts without a separator -/

variable {a b c : α} {l r xs : List α} {ls : List (List α)}

theorem pairFree_nil : PairFree a b [] := by
  rintro ⟨s, t, h⟩
  simp at h

theorem pairFree_cons {x : α} : PairFree a b (x :: xs) ↔ ¬ (x = a ∧ xs.head? = some b) ∧ PairFree a b xs := by
  have hfront : [a, b] <+: x :: xs ↔ x = a ∧ xs.head? = some b := by
    rw [List.cons_prefix_cons]
    cases xs with
    | nil => simp
    | cons y ys => simp [List.cons_prefix_cons, eq_comm]
  unfold PairFree
  rw [List.infix_cons_iff, not_or, hfront]

theorem PairFree.of_isInfix {ys : List α} (h : PairFree a b xs) (hys : ys <:+: xs) : PairFree a b ys :=
  fun hpair => h (hpair.trans hys)

/-- A text without `a` has no separator. -/
theorem pairFree_of_not_mem (h : a ∉ xs) : PairFree a b xs :=
  fun hpair => h (hpair.subset List.mem_cons_self)

/-- Texts that something else joins. -/
theorem PairFree.append_cons (hl : PairFree a b l) (hr : PairFree a b r) (ha : c ≠ a) (hb : c ≠ b) :
    PairFree a b (l ++ c :: r) := by
  induction l with
  | nil => exact pairFree_cons.mpr ⟨fun h => ha h.1, hr⟩
  | cons x l ih =>
    obtain ⟨hx, hl⟩ := pairFree_cons.mp hl
    refine pairFree_cons.mpr ⟨?_, ih hl⟩
    rintro ⟨rfl, hhead⟩
    cases l with
    | nil => exact hb (Option.some.inj hhead)
    | cons y l => exact hx ⟨rfl, hhead⟩

/-- A line has a separator behind it. -/
theorem not_pairFree_unlines (hls : ls ≠ []) : ¬ PairFree a b (unlines a b ls ++ r) := by
  obtain ⟨l, ls, rfl⟩ := List.exists_cons_of_ne_nil hls
  refine fun hfree => hfree ⟨l, unlines a b ls ++ r, ?_⟩
  simp

/-- The beginning of a separator makes none. -/
theorem PairFree.concat (h : PairFree a b l) (hab : a ≠ b) : PairFree a b (l ++ [a]) := by
  induction l with
  | nil => exact pairFree_cons.mpr ⟨(fun hpair => nomatch hpair.2), pairFree_nil⟩
  | cons x l ih =>
    obtain ⟨hx, hl⟩ := pairFree_cons.mp h
    refine pairFree_cons.mpr ⟨?_, ih hl⟩
    rintro ⟨rfl, hhead⟩
    cases l with
    | nil => exact hab (Option.some.inj hhead)
    | cons y l => exact hx ⟨rfl, hhead⟩

/-- Lines that are cut short are fewer lines, and the beginning of another one. -/
theorem exists_lines_of_isPrefix (hab : a ≠ b) (hls : ∀ l ∈ ls, PairFree a b l)
    (h : xs <+: unlines a b ls) (hne : xs ≠ unlines a b ls) :
    ∃ ms r, ms <+: ls ∧ ms ≠ ls ∧ xs = unlines a b ms ++ r ∧ PairFree a b r := by
  induction ls generalizing xs with
  | nil => exact absurd (List.prefix_nil.mp h) hne
  | cons l ls ih =>
    obtain ⟨hl, hls⟩ := List.forall_mem_cons.mp hls
    rw [unlines_cons] at h hne
    have hsplit : l ++ a :: b :: unlines a b ls = l ++ [a, b] ++ unlines a b ls := by simp
    rw [hsplit] at h hne
    by_cases hlong : (l ++ [a, b]).length ≤ xs.length
    · -- The first line is there in full.
      obtain ⟨ys, rfl⟩ := List.prefix_of_prefix_length_le (List.prefix_append _ _) h hlong
      have hys := (List.prefix_append_right_inj _).mp h
      obtain ⟨ms, r, hms, hshort, rfl, hr⟩ := ih hls hys fun heq => hne (by rw [heq])
      refine ⟨l :: ms, r, (List.prefix_cons_inj l).mpr hms, fun heq => hshort (List.cons.inj heq).2, ?_, hr⟩
      simp
    · have hcut : xs <+: l ++ [a] := by
        refine List.prefix_of_prefix_length_le h ?_ ?_
        · exact ⟨b :: unlines a b ls, by simp⟩
        · simp only [List.length_append, List.length_cons, List.length_nil] at hlong ⊢
          omega
      exact ⟨[], xs, List.nil_prefix, (List.cons_ne_nil l ls).symm, rfl,
        (hl.concat hab).of_isInfix hcut.isInfix⟩

/-! ## The first separator -/

variable [DecidableEq α]

/-- The place of the first `a` that is followed by `b`. -/
def findPair (a b : α) : List α → Option ℕ
  | x :: y :: xs => if x = a ∧ y = b then some 0 else (findPair a b (y :: xs)).map (· + 1)
  | _ => none

theorem findPair_cons (x : α) (xs : List α) :
    findPair a b (x :: xs) =
      if x = a ∧ xs.head? = some b then some 0 else (findPair a b xs).map (· + 1) := by
  cases xs with
  | nil => simp [findPair]
  | cons y xs => simp [findPair]

theorem findPair_eq_none_iff : findPair a b xs = none ↔ PairFree a b xs := by
  induction xs with
  | nil => exact ⟨fun _ => pairFree_nil, fun _ => rfl⟩
  | cons x xs ih =>
    rw [findPair_cons, pairFree_cons, ← ih]
    split_ifs with h
    · simp [h]
    · simp [h]

instance : Decidable (PairFree a b xs) := decidable_of_iff _ findPair_eq_none_iff

/-- What stands before a separator, if it has none itself, is what the search passes over. -/
theorem findPair_append (hab : a ≠ b) (hl : PairFree a b l) :
    findPair a b (l ++ a :: b :: r) = some l.length := by
  induction l with
  | nil => simp [findPair]
  | cons x l ih =>
    obtain ⟨hx, hl⟩ := pairFree_cons.mp hl
    -- The last `a` of the line is followed by the separator's `a`.
    have hhead : ¬ (x = a ∧ (l ++ a :: b :: r).head? = some b) := by
      cases l with
      | nil => simp [hab]
      | cons y l => exact hx
    rw [List.cons_append, findPair_cons, if_neg hhead, ih hl]
    rfl

/-- A text is cut at its first separator in one way. -/
theorem append_pair_inj {l' r' : List α} (hab : a ≠ b) (hl : PairFree a b l) (hl' : PairFree a b l')
    (h : l ++ a :: b :: r = l' ++ a :: b :: r') : l = l' ∧ r = r' := by
  have hplace := congrArg (findPair a b) h
  rw [findPair_append hab hl, findPair_append hab hl'] at hplace
  obtain ⟨hfront, hrest⟩ := List.append_inj h (Option.some.inj hplace)
  exact ⟨hfront, (List.cons.inj (List.cons.inj hrest).2).2⟩

/-- Different lines make different texts. -/
theorem unlines_inj {ms : List (List α)} (hab : a ≠ b) (hls : ∀ l ∈ ls, PairFree a b l)
    (hms : ∀ l ∈ ms, PairFree a b l) (h : unlines a b ls = unlines a b ms) : ls = ms := by
  induction ls generalizing ms with
  | nil =>
    cases ms with
    | nil => rfl
    | cons m ms => simp at h
  | cons l ls ih =>
    cases ms with
    | nil => simp at h
    | cons m ms =>
      rw [unlines_cons, unlines_cons] at h
      obtain ⟨hl, hls'⟩ := List.forall_mem_cons.mp hls
      obtain ⟨hm, hms'⟩ := List.forall_mem_cons.mp hms
      obtain ⟨hhead, hrest⟩ := append_pair_inj hab hl hm h
      rw [hhead, ih hls' hms' hrest]

/-- A list is cut at the first `a`. -/
theorem takeWhile_append_tail (h : a ∈ xs) :
    xs.takeWhile (· ≠ a) ++ a :: (xs.dropWhile (· ≠ a)).tail = xs := by
  induction xs with
  | nil => cases h
  | cons x xs ih =>
    by_cases hx : x = a
    · simp [hx]
    · have hxs : a ∈ xs := (List.mem_cons.mp h).resolve_left (Ne.symm hx)
      simpa [hx] using ih hxs

/-! ## The lines of a text -/

/-- The lines of a text that are terminated, and what stands behind them. -/
def lines (a b : α) : List α → List (List α) × List α
  | x :: y :: xs =>
    if x = a ∧ y = b then ([] :: (lines a b xs).1, (lines a b xs).2)
    else
      match lines a b (y :: xs) with
      | ([], r) => ([], x :: r)
      | (l :: ls, r) => ((x :: l) :: ls, r)
  | xs => ([], xs)

/-- Every text is its lines and what stands behind them. -/
theorem unlines_lines (a b : α) (xs : List α) :
    unlines a b (lines a b xs).1 ++ (lines a b xs).2 = xs := by
  fun_induction lines a b xs with
  | case1 x y xs h ih =>
    obtain ⟨rfl, rfl⟩ := h
    simpa using ih
  | case2 x y xs h r hlines ih =>
    rw [hlines] at ih
    simpa using ih
  | case3 x y xs h l ls r hlines ih =>
    rw [hlines] at ih
    simpa using ih
  | case4 => rfl

/-- None of the parts has a separator. -/
theorem pairFree_lines (a b : α) (xs : List α) :
    (∀ l ∈ (lines a b xs).1, PairFree a b l) ∧ PairFree a b (lines a b xs).2 := by
  fun_induction lines a b xs with
  | case1 x y xs h ih => exact ⟨List.forall_mem_cons.mpr ⟨pairFree_nil, ih.1⟩, ih.2⟩
  | case2 x y xs h r hlines ih =>
    have hjoin := unlines_lines a b (y :: xs)
    rw [hlines] at ih hjoin
    have hr : r = y :: xs := hjoin
    refine ⟨ih.1, pairFree_cons.mpr ⟨?_, ih.2⟩⟩
    rw [hr]
    exact fun hpair => h ⟨hpair.1, Option.some.inj hpair.2⟩
  | case3 x y xs h l ls r hlines ih =>
    have hjoin := unlines_lines a b (y :: xs)
    rw [hlines] at ih hjoin
    obtain ⟨hl, hls⟩ := List.forall_mem_cons.mp ih.1
    refine ⟨List.forall_mem_cons.mpr ⟨pairFree_cons.mpr ⟨?_, hl⟩, hls⟩, ih.2⟩
    rintro ⟨rfl, hhead⟩
    -- The line begins as the text does.
    cases l with
    | nil => cases hhead
    | cons z l =>
      obtain rfl : z = b := Option.some.inj hhead
      rw [unlines_cons, List.cons_append, List.cons_append] at hjoin
      exact h ⟨rfl, (List.cons.inj hjoin).1.symm⟩
  | case4 xs hxs =>
    refine ⟨fun l hl => absurd hl List.not_mem_nil, ?_⟩
    show PairFree a b xs
    cases xs with
    | nil => exact pairFree_nil
    | cons x xs =>
      cases xs with
      | nil => exact pairFree_cons.mpr ⟨(fun h => nomatch h.2), pairFree_nil⟩
      | cons y xs => exact absurd rfl (hxs x y xs)

end Hulatang
