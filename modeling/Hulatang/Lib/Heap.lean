import Mathlib.Data.List.Nodup
import Mathlib.Data.List.Perm.Subperm
import Mathlib.Logic.Function.Basic
import Mathlib.Tactic.ByContra
import Mathlib.Tactic.SplitIfs

/-!
# A heap, and the lists that are linked in it

A `Heap` has cells at finitely many addresses. An allocation takes the address that the environment asks
for, if that is free, so every allocator that never hands out a live address is covered, also one that uses
addresses again.

`Path link p xs q` says that the pointer `p` leads over the nodes `xs` to the pointer `q`. It depends on
`link` alone, which gives the `next` of each node, so that a heap whose links are the same has the same
lists. A list ends with a null pointer; it determines its nodes (`Path.unique`) and has each of them once
(`Path.nodup`). The remaining lemmas say what the classical operations do: the push, the append and the
removal after a node.
-/

namespace Hulatang

/-- Cells by their addresses. -/
structure Heap (α : Type*) where
  cells : ℕ → Option α
  /-- There are no cells from here on. -/
  bound : ℕ
  free : ∀ a, bound ≤ a → cells a = none

namespace Heap

variable {α : Type*} {h : Heap α} {a b : ℕ} {v : α}

def empty : Heap α := ⟨fun _ => none, 0, fun _ _ => rfl⟩

/-- A cell is written, or allocated. -/
def set (h : Heap α) (a : ℕ) (v : α) : Heap α where
  cells := Function.update h.cells a (some v)
  bound := max h.bound (a + 1)
  free b hb := by
    have hne : b ≠ a := by omega
    rw [Function.update_of_ne hne]
    exact h.free b (Nat.le_trans (Nat.le_max_left ..) hb)

/-- A cell is released. -/
def delete (h : Heap α) (a : ℕ) : Heap α where
  cells := Function.update h.cells a none
  bound := h.bound
  free b hb := by
    by_cases hba : b = a
    · rw [hba]
      exact Function.update_self ..
    · rw [Function.update_of_ne hba]
      exact h.free b hb

/-- The address of an allocation: the one that is asked for, if it is free. -/
def fresh (h : Heap α) (hint : ℕ) : ℕ := if (h.cells hint).isNone then hint else h.bound

@[simp] theorem set_self (h : Heap α) (a : ℕ) (v : α) : (h.set a v).cells a = some v :=
  Function.update_self ..

theorem set_of_ne (hba : b ≠ a) : (h.set a v).cells b = h.cells b :=
  Function.update_of_ne hba ..

theorem delete_of_ne (hba : b ≠ a) : (h.delete a).cells b = h.cells b :=
  Function.update_of_ne hba ..

@[simp] theorem cells_fresh (h : Heap α) (hint : ℕ) : h.cells (h.fresh hint) = none := by
  unfold fresh
  split_ifs with hhint
  · exact Option.isNone_iff_eq_none.mp hhint
  · exact h.free _ (Nat.le_refl _)

/-- A cell is below the bound. -/
theorem lt_bound (ha : h.cells a = some v) : a < h.bound := by
  by_contra hle
  rw [h.free a (Nat.le_of_not_lt hle)] at ha
  cases ha

/-- A list of distinct cells is no longer than the bound. -/
theorem length_le_bound {xs : List ℕ} (hn : xs.Nodup) (hx : ∀ a ∈ xs, h.cells a ≠ none) :
    xs.length ≤ h.bound := by
  have hsub : xs ⊆ List.range h.bound := by
    intro a ha
    obtain ⟨v, hv⟩ := Option.ne_none_iff_exists'.mp (hx a ha)
    exact List.mem_range.mpr (lt_bound hv)
  calc xs.length ≤ (List.range h.bound).length := (hn.subperm hsub).length_le
    _ = h.bound := List.length_range

end Heap

/-- The pointer `p` leads over the nodes `xs` to the pointer `q`. -/
def Path {A : Type*} (link : A → Option (Option A)) (p : Option A) : List A → Option A → Prop
  | [], q => p = q
  | a :: as, q => p = some a ∧ ∃ next, link a = some next ∧ Path link next as q

namespace Path

variable {A : Type*} {link link' : A → Option (Option A)} {p q r : Option A} {a b : A} {xs ys : List A}

theorem append_iff : Path link p (xs ++ ys) q ↔ ∃ r, Path link p xs r ∧ Path link r ys q := by
  induction xs generalizing p with
  | nil => exact ⟨fun h => ⟨p, rfl, h⟩, fun ⟨_, hr, h⟩ => hr ▸ h⟩
  | cons a xs ih =>
    constructor
    · rintro ⟨hp, next, hnext, h⟩
      obtain ⟨r, hxs, hys⟩ := ih.mp h
      exact ⟨r, ⟨hp, next, hnext, hxs⟩, hys⟩
    · rintro ⟨r, ⟨hp, next, hnext, hxs⟩, hys⟩
      exact ⟨hp, next, hnext, ih.mpr ⟨r, hxs, hys⟩⟩

/-- A path depends on the links of its nodes alone. -/
theorem congr (h : Path link p xs q) (hlink : ∀ a ∈ xs, link' a = link a) : Path link' p xs q := by
  induction xs generalizing p with
  | nil => exact h
  | cons a xs ih =>
    obtain ⟨hp, next, hnext, hxs⟩ := h
    obtain ⟨ha, hrest⟩ := List.forall_mem_cons.mp hlink
    exact ⟨hp, next, ha.trans hnext, ih hxs hrest⟩

/-- A node of a path has a link. -/
theorem link_ne_none (h : Path link p xs q) (ha : a ∈ xs) : link a ≠ none := by
  obtain ⟨before, after, rfl⟩ := List.append_of_mem ha
  obtain ⟨r, -, -, next, hnext, -⟩ := append_iff.mp h
  rw [hnext]
  exact Option.some_ne_none _

/-- A list determines its nodes. -/
theorem unique (hx : Path link p xs none) (hy : Path link p ys none) : xs = ys := by
  induction xs generalizing p ys with
  | nil =>
    cases ys with
    | nil => rfl
    | cons b ys => exact absurd (hx.symm.trans hy.1) (Option.some_ne_none b).symm
  | cons a xs ih =>
    obtain ⟨hp, next, hnext, hxs⟩ := hx
    cases ys with
    | nil => exact absurd (hp.symm.trans hy) (Option.some_ne_none a)
    | cons b ys =>
      obtain ⟨hp', next', hnext', hys⟩ := hy
      have hab : a = b := Option.some.inj (hp.symm.trans hp')
      subst hab
      have hsame : next = next' := Option.some.inj (hnext.symm.trans hnext')
      rw [ih hxs (hsame ▸ hys)]

/-- A list has each of its nodes once. -/
theorem nodup (h : Path link p xs none) : xs.Nodup := by
  induction xs generalizing p with
  | nil => exact List.nodup_nil
  | cons a xs ih =>
    obtain ⟨-, next, hnext, hxs⟩ := h
    refine List.nodup_cons.mpr ⟨fun ha => ?_, ih hxs⟩
    -- The second time that the node is reached, the same nodes would follow.
    obtain ⟨before, after, rfl⟩ := List.append_of_mem ha
    obtain ⟨r, -, hr, hafter⟩ := append_iff.mp hxs
    obtain ⟨next', hnext', hpath⟩ := hafter
    have hsame : next' = next := Option.some.inj (hnext'.symm.trans hnext)
    have heq : after = before ++ a :: after := (hsame ▸ hpath).unique hxs
    have hlength := congrArg List.length heq
    rw [List.length_append, List.length_cons] at hlength
    omega

/-- A node that links to the first node of a list comes before it. -/
theorem cons (h : Path link p xs q) (ha : link a = some p) : Path link (some a) (a :: xs) q :=
  ⟨rfl, p, ha, h⟩

/-- The nodes from a pointer on, at most as many as there is fuel. -/
def nodes (link : A → Option (Option A)) : ℕ → Option A → List A
  | 0, _ => []
  | _, none => []
  | fuel + 1, some a => a :: nodes link fuel (link a).join

theorem nodes_eq {fuel : ℕ} (h : Path link p xs none) (hfuel : xs.length ≤ fuel) :
    nodes link fuel p = xs := by
  induction xs generalizing p fuel with
  | nil =>
    cases h
    cases fuel <;> rfl
  | cons a xs ih =>
    obtain ⟨rfl, next, hnext, hxs⟩ := h
    obtain ⟨fuel, rfl⟩ := Nat.exists_eq_add_of_lt hfuel
    unfold nodes
    rw [hnext, Option.join_some, ih hxs (Nat.le_add_right _ fuel)]

variable [DecidableEq A]

/-- The links of the nodes outside of a path may change. -/
theorem update (h : Path link p xs q) {next : Option (Option A)} (ha : a ∉ xs) :
    Path (Function.update link a next) p xs q :=
  h.congr fun b hb => Function.update_of_ne (fun hba : b = a => ha (hba ▸ hb)) ..

/-- The last node of a list gets the link to one that ends there. -/
theorem concat (h : Path link p (xs ++ [a]) none) (hb : link b = some none) (hnot : b ∉ xs ++ [a]) :
    Path (Function.update link a (some (some b))) p (xs ++ [a] ++ [b]) none := by
  have hn : (xs ++ [a]).Nodup := h.nodup
  have ha : a ∉ xs := fun ha => (List.nodup_append.mp hn).2.2 a ha a List.mem_cons_self rfl
  obtain ⟨r, hxs, hr, -⟩ := append_iff.mp h
  have hba : b ≠ a := fun hba => hnot (hba ▸ List.mem_append_right xs List.mem_cons_self)
  refine append_iff.mpr ⟨some b, append_iff.mpr ⟨r, hxs.update ha, hr, some b, ?_, rfl⟩, rfl, none, ?_, rfl⟩
  · exact Function.update_self ..
  · rw [Function.update_of_ne hba]
    exact hb

/-- A node gets the link of the one that follows it. -/
theorem erase (h : Path link p (xs ++ a :: b :: ys) none) :
    Path (Function.update link a (link b)) p (xs ++ a :: ys) none := by
  have hn := h.nodup
  have ha : a ∉ xs := fun ha => (List.nodup_append.mp hn).2.2 a ha a List.mem_cons_self rfl
  have hrest : a ∉ ys := fun hmem =>
    (List.nodup_cons.mp (List.nodup_append.mp hn).2.1).1 (List.mem_cons_of_mem b hmem)
  obtain ⟨r, hxs, hr, _, -, hbr, next, hnext, hys⟩ := append_iff.mp h
  refine append_iff.mpr ⟨r, hxs.update ha, hr, next, ?_, hys.update hrest⟩
  rw [Function.update_self, hnext]

end Path

end Hulatang
