import Mathlib.Data.List.Pairwise
import Mathlib.Order.Lattice

/-!
# Ordered sets identified by a key

An ordered set container keeps its elements in the order of a comparator, and takes two elements to
be the same when neither compares less than the other. Here the comparator compares a key, so the
container is a list `Sorted key` that holds at most one element of each key. `emplace` inserts at
the first place that the comparator allows and gives up at an element of the same key, `eraseKey`
removes whatever has the key, and `after` is the iterator that follows an element.

The elements may be shared objects whose key changes while they are in the container;
`sorted_update` says when such a change keeps the order. A container promises nothing of `emplace` on
elements that are out of order, except that it leaves them where they are and puts the new one in some
place or none, which is `place`.
-/

namespace Hulatang.KeyedSet

variable {α κ : Type*} [LinearOrder κ]

/-- The elements are in strictly ascending order of their keys. -/
def Sorted (key : α → κ) (l : List α) : Prop :=
  l.Pairwise fun a b => key a < key b

/-- Insert `w` before the first element that it compares less than, unless an element of the same
key comes first. -/
def emplace (key : α → κ) (w : α) : List α → List α
  | [] => [w]
  | v :: vs =>
    if key v < key w then v :: emplace key w vs
    else if key w < key v then w :: v :: vs
    else v :: vs

/-- Remove every element that the comparator takes to be the same as `w`. -/
def eraseKey (key : α → κ) (w : α) (l : List α) : List α :=
  l.filter fun v => key v < key w ∨ key w < key v

/-- The element that follows `w`, `none` for the end. -/
def after [DecidableEq α] (w : α) : List α → Option α
  | [] => none
  | v :: vs => if v = w then vs.head? else after w vs

variable {key : α → κ}

/-- In a sorted list an element is determined by its key. -/
theorem Sorted.eq_of_key {l : List α} (h : Sorted key l) {a b : α} (ha : a ∈ l) (hb : b ∈ l)
    (hk : key a = key b) : a = b := by
  induction l with
  | nil => cases ha
  | cons v vs ih =>
    obtain ⟨hv, hvs⟩ := List.pairwise_cons.mp h
    rcases List.mem_cons.mp ha with rfl | ha' <;> rcases List.mem_cons.mp hb with rfl | hb'
    · rfl
    · -- The head compares less than everything after it, so it shares its key with none of it.
      exact absurd hk (ne_of_lt (hv b hb'))
    · exact absurd hk.symm (ne_of_lt (hv a ha'))
    · exact ih hvs ha' hb'

/-- A sorted list holds no element twice. -/
theorem Sorted.nodup {l : List α} (h : Sorted key l) : l.Nodup :=
  List.Pairwise.imp (fun {_ _} hab hne => ne_of_lt hab (congrArg key hne)) h

/-- Sortedness depends on the keys of the elements only. -/
theorem sorted_congr {key' : α → κ} {l : List α} (h : ∀ v ∈ l, key' v = key v) :
    Sorted key' l ↔ Sorted key l :=
  List.Pairwise.iff_of_mem fun {a b} ha hb => by rw [h a ha, h b hb]

/-- In a sorted list, the element of the lesser key comes first: what holds of every pair in the order
of the list holds of the two. -/
theorem Sorted.rel_of_lt {R : α → α → Prop} {l : List α} (h : Sorted key l) (hR : l.Pairwise R)
    {a b : α} (ha : a ∈ l) (hb : b ∈ l) (hlt : key a < key b) : R a b := by
  induction l with
  | nil => cases ha
  | cons v vs ih =>
    obtain ⟨hv, hvs⟩ := List.pairwise_cons.mp h
    obtain ⟨hRv, hRvs⟩ := List.pairwise_cons.mp hR
    rcases List.mem_cons.mp ha with rfl | ha' <;> rcases List.mem_cons.mp hb with rfl | hb'
    · exact absurd hlt (lt_irrefl _)
    · exact hRv b hb'
    · exact absurd hlt (lt_asymm (hv a ha'))
    · exact ih hvs hRvs ha' hb'

/-- The first element of a sorted list has the least key. -/
theorem Sorted.head_le {l : List α} (h : Sorted key l) {w : α} (hw : l.head? = some w) :
    ∀ v ∈ l, key w ≤ key v := by
  cases l with
  | nil => cases hw
  | cons u us =>
    cases hw
    intro v hv
    rcases List.mem_cons.mp hv with rfl | hv
    · exact le_refl _
    · exact le_of_lt ((List.pairwise_cons.mp h).1 v hv)

/-! ## `emplace` -/

/-- What `emplace` leaves in the list was there, or is the new element. -/
theorem mem_of_mem_emplace {w x : α} {l : List α} (h : x ∈ emplace key w l) : x = w ∨ x ∈ l := by
  induction l with
  | nil => simpa [emplace] using h
  | cons v vs ih =>
    unfold emplace at h
    split_ifs at h with h1 h2
    · rcases List.mem_cons.mp h with rfl | h
      · exact .inr List.mem_cons_self
      · exact (ih h).imp_right (List.mem_cons_of_mem v)
    · exact List.mem_cons.mp h
    · exact .inr h

/-- `emplace` removes nothing. -/
theorem mem_emplace_of_mem {w x : α} {l : List α} (h : x ∈ l) : x ∈ emplace key w l := by
  induction l with
  | nil => cases h
  | cons v vs ih =>
    unfold emplace
    split_ifs
    · rcases List.mem_cons.mp h with rfl | h
      · exact List.mem_cons_self
      · exact List.mem_cons_of_mem v (ih h)
    · exact List.mem_cons_of_mem w h
    · exact h

/-- An element whose key no element has is inserted. -/
theorem mem_emplace_of_fresh {w x : α} {l : List α} (hf : ∀ v ∈ l, key v ≠ key w) :
    x ∈ emplace key w l ↔ x = w ∨ x ∈ l := by
  refine ⟨mem_of_mem_emplace, ?_⟩
  rintro (rfl | h)
  · induction l with
    | nil => exact List.mem_cons_self
    | cons v vs ih =>
      unfold emplace
      split_ifs with h1 h2
      · exact List.mem_cons_of_mem v (ih fun u hu => hf u (List.mem_cons_of_mem v hu))
      · exact List.mem_cons_self
      · -- `emplace` gives up only at an element that compares neither way.
        exact absurd (le_antisymm (not_lt.mp h2) (not_lt.mp h1)) (hf v List.mem_cons_self)
  · exact mem_emplace_of_mem h

/-- In a sorted list an element whose key another one has is dropped. -/
theorem emplace_of_key_mem {w v : α} {l : List α} (h : Sorted key l) (hv : v ∈ l)
    (hk : key v = key w) : emplace key w l = l := by
  induction l with
  | nil => cases hv
  | cons u us ih =>
    obtain ⟨hu, hus⟩ := List.pairwise_cons.mp h
    unfold emplace
    rcases List.mem_cons.mp hv with rfl | hv
    · rw [if_neg (not_lt.mpr (ge_of_eq hk)), if_neg (not_lt.mpr (le_of_eq hk))]
    · -- What stands before the element of that key is passed over.
      rw [if_pos (hk ▸ hu v hv), ih hus hv]

/-- `emplace` keeps a list sorted. -/
theorem sorted_emplace {w : α} {l : List α} (h : Sorted key l) : Sorted key (emplace key w l) := by
  induction l with
  | nil => exact List.pairwise_singleton _ _
  | cons v vs ih =>
    obtain ⟨hv, hvs⟩ := List.pairwise_cons.mp h
    unfold emplace
    split_ifs with h1 h2
    · refine List.pairwise_cons.mpr ⟨fun u hu => ?_, ih hvs⟩
      rcases mem_of_mem_emplace hu with rfl | hu
      · exact h1
      · exact hv u hu
    · refine List.pairwise_cons.mpr ⟨fun u hu => ?_, h⟩
      rcases List.mem_cons.mp hu with rfl | hu
      · exact h2
      · exact lt_trans h2 (hv u hu)
    · exact h

/-! ## `eraseKey` -/

/-- `eraseKey` removes exactly the elements of the key. -/
theorem mem_eraseKey {w x : α} {l : List α} : x ∈ eraseKey key w l ↔ x ∈ l ∧ key x ≠ key w := by
  rw [eraseKey, List.mem_filter, decide_eq_true_eq, ne_iff_lt_or_gt]

/-- `eraseKey` keeps a list sorted. -/
theorem sorted_eraseKey {w : α} {l : List α} (h : Sorted key l) :
    Sorted key (eraseKey key w l) :=
  List.Pairwise.filter _ h

/-! ## A container that is out of order -/

/-- Insert `w` at the place `p`, or nowhere. -/
def place (p : Option ℕ) (w : α) (l : List α) : List α :=
  match p with
  | none => l
  | some i => l.insertIdx i w

/-- `emplace` inserts at some place or nowhere. -/
theorem exists_place (w : α) (l : List α) : ∃ p, emplace key w l = place p w l := by
  induction l with
  | nil => exact ⟨some 0, rfl⟩
  | cons v vs ih =>
    unfold emplace
    split_ifs
    · obtain ⟨p, hp⟩ := ih
      rw [hp]
      cases p with
      | none => exact ⟨none, rfl⟩
      | some i => exact ⟨some (i + 1), rfl⟩
    · exact ⟨some 0, rfl⟩
    · exact ⟨none, rfl⟩

/-- Nothing is gained but the new element. -/
theorem place_eq_or_perm (p : Option ℕ) (w : α) (l : List α) :
    place p w l = l ∨ (place p w l).Perm (w :: l) := by
  cases p with
  | none => exact .inl rfl
  | some i =>
    by_cases hi : i ≤ l.length
    · exact .inr (List.perm_insertIdx w l hi)
    · exact .inl (List.insertIdx_of_length_lt (Nat.lt_of_not_le hi))

theorem mem_of_mem_place {p : Option ℕ} {w x : α} {l : List α} (h : x ∈ place p w l) : x = w ∨ x ∈ l := by
  rcases place_eq_or_perm p w l with heq | hperm
  · exact .inr (heq ▸ h)
  · exact List.mem_cons.mp (hperm.mem_iff.mp h)

/-- Nothing is lost. -/
theorem mem_place_of_mem {p : Option ℕ} {w x : α} {l : List α} (h : x ∈ l) : x ∈ place p w l := by
  rcases place_eq_or_perm p w l with heq | hperm
  · rwa [heq]
  · exact hperm.mem_iff.mpr (List.mem_cons_of_mem w h)

theorem nodup_place {p : Option ℕ} {w : α} {l : List α} (h : l.Nodup) (hw : w ∉ l) :
    (place p w l).Nodup := by
  rcases place_eq_or_perm p w l with heq | hperm
  · rwa [heq]
  · exact hperm.nodup_iff.mpr (List.nodup_cons.mpr ⟨hw, h⟩)

section After

variable [DecidableEq α]

/-- The others are there as often as before. -/
theorem count_place_of_ne {w v : α} (hv : v ≠ w) (p : Option ℕ) (l : List α) :
    (place p w l).count v = l.count v := by
  rcases place_eq_or_perm p w l with heq | hperm
  · rw [heq]
  · rw [hperm.count_eq, List.count_cons_of_ne hv.symm]

/-! ## The iterator after an element -/

/-- In a list without duplicates the element after `w` is another one of its elements. -/
theorem ne_of_after {l : List α} (h : l.Nodup) {w v : α} (hv : after w l = some v) : v ≠ w ∧ v ∈ l := by
  induction l with
  | nil => cases hv
  | cons x xs ih =>
    obtain ⟨hx, hxs⟩ := List.nodup_cons.mp h
    unfold after at hv
    split_ifs at hv with hxw
    · have hmem := List.mem_of_head? hv
      exact ⟨fun hvw => hx (hxw.trans hvw.symm ▸ hmem), List.mem_cons_of_mem x hmem⟩
    · obtain ⟨hne, hmem⟩ := ih hxs hv
      exact ⟨hne, List.mem_cons_of_mem x hmem⟩

/-- The element after `w` is the one with the least key above that of `w`. -/
theorem Sorted.after_eq_some {l : List α} (h : Sorted key l) {w v : α} (hw : w ∈ l)
    (hv : after w l = some v) :
    v ∈ l ∧ key w < key v ∧ ∀ u ∈ l, key w < key u → key v ≤ key u := by
  induction l with
  | nil => cases hw
  | cons x xs ih =>
    obtain ⟨hx, hxs⟩ := List.pairwise_cons.mp h
    unfold after at hv
    split_ifs at hv with hxw
    · subst hxw
      have hmem : v ∈ xs := List.mem_of_mem_head? hv
      refine ⟨List.mem_cons_of_mem x hmem, hx v hmem, fun u hu hlt => ?_⟩
      rcases List.mem_cons.mp hu with rfl | hu
      · exact absurd hlt (lt_irrefl _)
      · exact Sorted.head_le hxs hv u hu
    · -- The head comes before `w`, so it is not among the greater ones.
      have hw' : w ∈ xs := (List.mem_cons.mp hw).resolve_left fun e => hxw e.symm
      obtain ⟨hmem, hlt, hmin⟩ := ih hxs hw' hv
      refine ⟨List.mem_cons_of_mem x hmem, hlt, fun u hu hwu => ?_⟩
      rcases List.mem_cons.mp hu with rfl | hu
      · exact absurd hwu (lt_asymm (hx w hw'))
      · exact hmin u hu hwu

/-- When nothing follows `w`, its key is the greatest. -/
theorem Sorted.after_eq_none {l : List α} (h : Sorted key l) {w : α} (hw : w ∈ l)
    (hv : after w l = none) : ∀ u ∈ l, key u ≤ key w := by
  induction l with
  | nil => cases hw
  | cons x xs ih =>
    obtain ⟨hx, hxs⟩ := List.pairwise_cons.mp h
    unfold after at hv
    intro u hu
    split_ifs at hv with hxw
    · subst hxw
      rw [List.head?_eq_none_iff] at hv
      subst hv
      rw [List.mem_singleton.mp hu]
    · have hw' : w ∈ xs := (List.mem_cons.mp hw).resolve_left fun e => hxw e.symm
      rcases List.mem_cons.mp hu with rfl | hu
      · exact le_of_lt (hx w hw')
      · exact ih hxs hw' hv u hu

/-- Erasing an element by its iterator keeps a list sorted. -/
theorem sorted_erase {w : α} {l : List α} (h : Sorted key l) : Sorted key (l.erase w) :=
  List.Pairwise.sublist List.erase_sublist h

/-- Erasing an element by its iterator removes that element only. -/
theorem Sorted.mem_erase {w x : α} {l : List α} (h : Sorted key l) :
    x ∈ l.erase w ↔ x ≠ w ∧ x ∈ l :=
  h.nodup.mem_erase_iff

/-! ## Changing a key in place -/

/-- The element `w` at its place, its key `k`, and the other elements are in order. -/
def Fits (key : α → κ) (w : α) (k : κ) (l : List α) : Prop :=
  ∀ v ∈ l, v ≠ w → (key v < key w → key v < k) ∧ (key w < key v → k < key v)

/-- A list stays sorted when the key of one element moves to a value that fits its place. -/
theorem sorted_update {w : α} {k : κ} {l : List α} (h : Sorted key l) (hf : Fits key w k l) :
    Sorted (Function.update key w k) l := by
  refine List.Pairwise.imp_of_mem (fun {a b} ha hb hab => ?_) h
  -- Of two neighbours at most one is `w`; the order of the others is untouched.
  by_cases haw : a = w
  · subst haw
    have hba : b ≠ a := fun e => ne_of_lt hab (by rw [e])
    rw [Function.update_self, Function.update_of_ne hba]
    exact (hf b hb hba).2 hab
  · rw [Function.update_of_ne haw]
    by_cases hbw : b = w
    · subst hbw
      rw [Function.update_self]
      exact (hf a ha haw).1 hab
    · rw [Function.update_of_ne hbw]
      exact hab

/-- A list whose keys still ascend after the key of `w` moved to one that no other element has: the
new key fits the place of `w`. -/
theorem fits_of_update {w : α} {k : κ} {l : List α} (h : Sorted key l) (hw : w ∈ l)
    (hne : ∀ v ∈ l, v ≠ w → key v ≠ k)
    (hs : l.Pairwise fun a b => Function.update key w k a ≤ Function.update key w k b) :
    Fits key w k l := by
  intro v hv hvw
  -- The old keys give the places of `v` and `w`, and the new ones ascend along them.
  constructor
  · intro hlt
    have hle := h.rel_of_lt hs hv hw hlt
    rw [Function.update_of_ne hvw, Function.update_self] at hle
    exact lt_of_le_of_ne hle (hne v hv hvw)
  · intro hlt
    have hle := h.rel_of_lt hs hw hv hlt
    rw [Function.update_of_ne hvw, Function.update_self] at hle
    exact lt_of_le_of_ne hle (hne v hv hvw).symm

end After

end Hulatang.KeyedSet
