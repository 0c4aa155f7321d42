import Mathlib.Data.List.Perm.Subperm
import Hulatang.Io.OverDispatch

/-!
# Freeing the lists

Two functions free a list of `Over`s, one in `Proactor.cpp` and one in `IOCPFdEventManager.cpp`, and they are
the same: each goes down to the last node and deletes that one. So a list of more than one node loses all but
its last (`freed_iff`). `cancel` and `~Channel` both free the lists that start at `over` and `rover`, and
`cancel` leaves these pointers: where the destructor frees again, it reads the node that `cancel` has deleted,
through `over` itself or through the `next` of the node before.
-/

namespace Hulatang

/-- What `cancel` and `~Channel` find of a channel, and what they have done. -/
structure OverChannel where
  lists : OverLists
  flags : BitVec 32
  /-- Whether `channels` has it. -/
  added : Bool
  /-- The nodes that have been deleted, in order. -/
  deleted : List ℕ

namespace OverChannel

open OverLists (link)

def kUseOver : BitVec 32 := 4

/-- `Channel::isUseOver`. -/
def isUseOver (s : OverChannel) : Bool := s.flags &&& kUseOver ≠ 0

/-- A node is released. -/
def release (s : OverChannel) (overPtr : ℕ) : OverChannel :=
  { s with
    lists := { s.lists with heap := s.lists.heap.delete overPtr }
    deleted := s.deleted ++ [overPtr] }

/-- `delete overPtr`. -/
def delete (s : OverChannel) (overPtr : ℕ) : Except OverFault OverChannel := do
  let _ ← s.lists.deref overPtr
  return s.release overPtr

/-- The recursion of both functions. -/
def freeList : ℕ → Option ℕ → OverChannel → Except OverFault OverChannel
  | _, none, s => return s
  | 0, some _, _ => .error .endless
  | fuel + 1, some overPtr, s => do
    let o ← s.lists.deref overPtr
    match o.next with
    | none => s.delete overPtr
    | some next => freeList fuel (some next) s

/-- `FreeOverList(Over *)` of `Proactor.cpp`. -/
def proactorFreeOverList (overPtr : Option ℕ) (s : OverChannel) : Except OverFault OverChannel :=
  freeList s.lists.heap.bound overPtr s

/-- `FreeOverList(Channel *)` of `Proactor.cpp`. -/
def proactorFreeOverLists (s : OverChannel) : Except OverFault OverChannel := do
  let overPtr := s.lists.overPtr
  let rover := s.lists.rover
  let s ← proactorFreeOverList overPtr s
  proactorFreeOverList rover s

/-- `freeOverList` of `IOCPFdEventManager.cpp`. -/
def iocpFreeOverList (overPtr : Option ℕ) (s : OverChannel) : Except OverFault OverChannel :=
  freeList s.lists.heap.bound overPtr s

/-- `IOCPFdEventManager::cancel`. -/
def cancel (s : OverChannel) : Except OverFault OverChannel := do
  let s ← iocpFreeOverList s.lists.overPtr s
  let s ← iocpFreeOverList s.lists.rover s
  if s.added then return { s with added := false } else .error .assertion

/-- `~Channel`. -/
def destroy (s : OverChannel) : Except OverFault OverChannel :=
  if s.isUseOver then s.proactorFreeOverLists else return s

/-- `cancel`, and then `~Channel`. -/
def cancelAndDestroy (s : OverChannel) : Except OverFault OverChannel := do
  let s ← s.cancel
  s.destroy

/-- It returns, no deleted node has been read, and the nodes have been deleted, each of them once. -/
def FreesOnce (free : OverChannel → Except OverFault OverChannel) (s : OverChannel) (xs : List ℕ) : Prop :=
  ∃ t, free s = .ok t ∧ ∃ ys, t.deleted = s.deleted ++ ys ∧ ys.Perm xs

/-- The lists of a channel. -/
structure Lists (s : OverChannel) (P R : List ℕ) : Prop where
  overPtr : Path s.lists.link s.lists.overPtr P none
  rover : Path s.lists.link s.lists.rover R none
  disjoint : List.Disjoint P R

variable {s t : OverChannel} {p : Option ℕ} {xs P R : List ℕ} {a : ℕ}

/-! ## One list -/

theorem deref_of_link {next : Option ℕ} (h : s.lists.link a = some next) :
    ∃ o, s.lists.deref a = .ok o ∧ o.next = next := by
  obtain ⟨o, ho, hnext⟩ := OverLists.link_eq_some_iff.mp h
  exact ⟨o, OverLists.deref_eq ho, hnext⟩

theorem deref_of_link_none (h : s.lists.link a = none) : s.lists.deref a = .error .notAllocated := by
  unfold OverLists.deref
  rw [Option.map_eq_none_iff.mp h]

theorem link_release (s : OverChannel) (a : ℕ) :
    (s.release a).lists.link = Function.update s.lists.link a none := by
  funext b
  change (Function.update s.lists.heap.cells a none b).map StreamOverlapped.next = _
  by_cases hb : b = a
  · rw [hb, Function.update_self, Function.update_self]
    rfl
  · rw [Function.update_of_ne hb, Function.update_of_ne hb]
    rfl

/-- The nodes of a list are allocated, so there are no more than the heap has. -/
theorem length_le_bound (h : Path s.lists.link p xs none) : xs.length ≤ s.lists.heap.bound := by
  refine Heap.length_le_bound h.nodup fun b hb hnone => h.link_ne_none hb ?_
  unfold OverLists.link
  rw [hnone]
  rfl

/-- The recursion at the last node, and at another one. -/
theorem freeList_last (h : s.lists.link a = some none) (fuel : ℕ) :
    freeList (fuel + 1) (some a) s = .ok (s.release a) := by
  obtain ⟨o, ho, hnext⟩ := deref_of_link h
  rw [freeList, ho]
  change (match o.next with
    | none => s.delete a
    | some next => freeList fuel (some next) s) = _
  rw [hnext]
  exact bind_of_eq_ok ho _

theorem freeList_next {b : ℕ} (h : s.lists.link a = some (some b)) (fuel : ℕ) :
    freeList (fuel + 1) (some a) s = freeList fuel (some b) s := by
  obtain ⟨o, ho, hnext⟩ := deref_of_link h
  rw [freeList, ho]
  change (match o.next with
    | none => s.delete a
    | some next => freeList fuel (some next) s) = _
  rw [hnext]

/-- A list with its last node deleted. -/
def freed (s : OverChannel) (xs : List ℕ) : OverChannel := xs.getLast?.elim s s.release

/-- The recursion deletes the last node. -/
theorem freeList_eq {fuel : ℕ} (h : Path s.lists.link p xs none) (hfuel : xs.length ≤ fuel) :
    freeList fuel p s = .ok (s.freed xs) := by
  induction xs generalizing p fuel with
  | nil =>
    cases h
    cases fuel <;> rfl
  | cons a xs ih =>
    obtain ⟨rfl, next, hnext, hxs⟩ := h
    obtain ⟨fuel, rfl⟩ := Nat.exists_eq_add_of_lt hfuel
    cases xs with
    | nil =>
      cases hxs
      exact freeList_last hnext _
    | cons b xs =>
      obtain ⟨rfl, -⟩ := id hxs
      have hfreed : s.freed (a :: b :: xs) = s.freed (b :: xs) := by
        unfold freed
        rw [List.getLast?_cons_cons]
      rw [hfreed, freeList_next hnext]
      exact ih hxs (Nat.le_add_right _ fuel)

/-- Where the list leads to a node that is gone, the recursion reads it. -/
theorem freeList_dangling {fuel : ℕ} (h : Path s.lists.link p xs (some a)) (ha : s.lists.link a = none)
    (hfuel : xs.length < fuel) : freeList fuel p s = .error .notAllocated := by
  induction xs generalizing p fuel with
  | nil =>
    cases h
    obtain ⟨fuel, rfl⟩ := Nat.exists_eq_add_of_lt hfuel
    rw [freeList, deref_of_link_none ha]
    rfl
  | cons b xs ih =>
    obtain ⟨rfl, next, hnext, hxs⟩ := h
    obtain ⟨fuel, rfl⟩ := Nat.exists_eq_add_of_lt hfuel
    obtain ⟨c, rfl⟩ : ∃ c, next = some c := by
      cases xs with
      | nil => exact ⟨a, hxs⟩
      | cons c xs => exact ⟨c, hxs.1⟩
    rw [freeList_next hnext]
    exact ih hxs (by rw [List.length_cons]; omega)

theorem proactorFreeOverList_eq (h : Path s.lists.link p xs none) :
    proactorFreeOverList p s = .ok (s.freed xs) := freeList_eq h (length_le_bound h)

theorem iocpFreeOverList_eq (h : Path s.lists.link p xs none) : iocpFreeOverList p s = .ok (s.freed xs) :=
  freeList_eq h (length_le_bound h)

theorem freed_concat (s : OverChannel) (xs : List ℕ) (a : ℕ) : s.freed (xs ++ [a]) = s.release a := by
  unfold freed
  rw [List.getLast?_concat]
  rfl

/-- A deletion leaves the channel's own members as they are. -/
theorem freed_members (s : OverChannel) (xs : List ℕ) :
    (s.freed xs).lists.overPtr = s.lists.overPtr ∧ (s.freed xs).lists.rover = s.lists.rover ∧
      (s.freed xs).flags = s.flags ∧ (s.freed xs).added = s.added ∧
      (s.freed xs).lists.heap.bound = s.lists.heap.bound := by
  unfold freed
  cases xs.getLast? <;> exact ⟨rfl, rfl, rfl, rfl, rfl⟩

theorem freed_deleted (s : OverChannel) (xs : List ℕ) :
    (s.freed xs).deleted = s.deleted ++ xs.getLast?.toList := by
  unfold freed
  cases xs.getLast? with
  | none => exact (List.append_nil _).symm
  | some a => rfl

/-- The other lists are there as they were. -/
theorem path_freed {q : Option ℕ} {ys : List ℕ} (h : Path s.lists.link p ys q)
    (hdisjoint : List.Disjoint xs ys) :
    Path (s.freed xs).lists.link p ys q := by
  unfold freed
  cases hlast : xs.getLast? with
  | none => exact h
  | some a =>
    have ha : a ∉ ys := hdisjoint (List.mem_of_getLast? hlast)
    rw [Option.elim_some, link_release]
    exact h.update ha

/-- A list whose last node is deleted leads to it. -/
theorem path_freed_concat (h : Path s.lists.link p (xs ++ [a]) none) :
    Path (s.freed (xs ++ [a])).lists.link p xs (some a) ∧ (s.freed (xs ++ [a])).lists.link a = none := by
  have ha : a ∉ xs := fun hmem => (List.nodup_append.mp h.nodup).2.2 a hmem a List.mem_cons_self rfl
  obtain ⟨q, hxs, rfl, -⟩ := Path.append_iff.mp h
  rw [freed_concat, link_release]
  exact ⟨hxs.update ha, Function.update_self ..⟩

theorem link_freed (h : s.lists.link a = none) (xs : List ℕ) : (s.freed xs).lists.link a = none := by
  unfold freed
  cases xs.getLast? with
  | none => exact h
  | some b =>
    rw [Option.elim_some, link_release]
    by_cases hab : a = b
    · rw [hab, Function.update_self]
    · rw [Function.update_of_ne hab, h]

/-- The last nodes of two lists are all of them where neither has others. -/
theorem perm_getLast_iff :
    (P.getLast?.toList ++ R.getLast?.toList).Perm (P ++ R) ↔ P.length ≤ 1 ∧ R.length ≤ 1 := by
  have hlength : ∀ xs : List ℕ, xs.getLast?.toList.length = min xs.length 1 := by
    intro xs
    rcases List.eq_nil_or_concat' xs with rfl | ⟨ys, a, rfl⟩
    · rfl
    · rw [List.getLast?_concat, List.length_append]
      exact (Nat.min_eq_right (Nat.le_add_left 1 ys.length)).symm
  have hsame : ∀ xs : List ℕ, xs.length ≤ 1 → xs.getLast?.toList = xs := by
    rintro (_ | ⟨a, _ | ⟨b, xs⟩⟩) hle
    · rfl
    · rfl
    · exact absurd hle (by simp)
  constructor
  · intro h
    have heq := h.length_eq
    rw [List.length_append, List.length_append, hlength, hlength] at heq
    omega
  · rintro ⟨hP, hR⟩
    rw [hsame P hP, hsame R hR]

theorem freesOnce_iff {free : OverChannel → Except OverFault OverChannel} {ys : List ℕ} (h : free s = .ok t)
    (hdeleted : t.deleted = s.deleted ++ ys) : FreesOnce free s xs ↔ ys.Perm xs := by
  constructor
  · rintro ⟨u, hu, zs, hzs, hperm⟩
    cases h.symm.trans hu
    exact List.append_cancel_left (hdeleted.symm.trans hzs) ▸ hperm
  · intro hperm
    exact ⟨t, h, ys, hdeleted, hperm⟩

/-- A list is freed when it has no more than one node. -/
theorem freesOnce_freed_iff {free : OverChannel → Except OverFault OverChannel}
    (h : free s = .ok (s.freed xs)) :
    FreesOnce free s xs ↔ xs.length ≤ 1 := by
  have hone := perm_getLast_iff (P := xs) (R := [])
  rw [List.getLast?_nil, Option.toList_none, List.append_nil, List.append_nil] at hone
  rw [freesOnce_iff h (freed_deleted s xs), hone]
  exact and_iff_left (Nat.zero_le 1)

/-! ## Both lists of a channel -/

/-- The entry in `channels` does not matter. -/
theorem freed_remove (s : OverChannel) (P R : List ℕ) :
    ({ s with added := false }.freed P).freed R = { (s.freed P).freed R with added := false } := by
  unfold freed
  cases P.getLast? <;> cases R.getLast? <;> rfl

/-- `cancel` deletes the last node of each list. -/
theorem Lists.cancel_eq (h : Lists s P R) (hadded : s.added = true) :
    s.cancel = .ok (({ s with added := false }.freed P).freed R) := by
  obtain ⟨hover, hrover, -, hadd, -⟩ := freed_members s P
  have hready : Path (s.freed P).lists.link (s.freed P).lists.rover R none := by
    rw [hrover]
    exact path_freed h.rover h.disjoint
  unfold cancel
  rw [bind_of_eq_ok (iocpFreeOverList_eq h.overPtr), bind_of_eq_ok (iocpFreeOverList_eq hready)]
  change (if ((s.freed P).freed R).added then _ else _) = _
  rw [(freed_members _ R).2.2.2.1, hadd, hadded]
  exact congrArg Except.ok (freed_remove s P R).symm

/-- Freeing a list that leads to a deleted node. -/
theorem proactorFreeOverList_dangling (h : Path s.lists.link p xs (some a)) (ha : s.lists.link a = none)
    (hbound : xs.length < s.lists.heap.bound) : proactorFreeOverList p s = .error .notAllocated :=
  freeList_dangling h ha hbound

/-- A destructor that frees lists again which were not empty reads a deleted node. -/
theorem Lists.free_again (h : Lists s P R) (hne : ¬ (P = [] ∧ R = [])) :
    ((s.freed P).freed R).proactorFreeOverLists = .error .notAllocated := by
  obtain ⟨hover₁, hrover₁, -, -, hbound₁⟩ := freed_members s P
  obtain ⟨hover₂, hrover₂, -, -, hbound₂⟩ := freed_members (s.freed P) R
  have hover := hover₂.trans hover₁
  have hrover := hrover₂.trans hrover₁
  have hbound := hbound₂.trans hbound₁
  unfold proactorFreeOverLists
  rcases List.eq_nil_or_concat' P with rfl | ⟨xs, a, rfl⟩
  · -- Only the ready list has nodes.
    rcases List.eq_nil_or_concat' R with rfl | ⟨ys, b, rfl⟩
    · exact absurd ⟨rfl, rfl⟩ hne
    · have hnone : s.lists.overPtr = none := h.overPtr
      have hle := length_le_bound h.rover
      rw [List.length_append, List.length_singleton] at hle
      obtain ⟨hpath, hlink⟩ := path_freed_concat h.rover
      have hfirst : proactorFreeOverList none (s.freed (ys ++ [b])) = .ok (s.freed (ys ++ [b])) :=
        proactorFreeOverList_eq (show Path _ none [] none from rfl)
      have hdangling := proactorFreeOverList_dangling hpath hlink (hbound ▸ hle)
      rw [hover, hrover, hnone]
      exact (bind_of_eq_ok hfirst _).trans hdangling
  · have hle := length_le_bound h.overPtr
    rw [List.length_append, List.length_singleton] at hle
    obtain ⟨hpath, hlink⟩ := path_freed_concat h.overPtr
    have hdisjoint : List.Disjoint R xs := fun b hb hmem => h.disjoint (List.mem_append_left [a] hmem) hb
    have hdangling := proactorFreeOverList_dangling (path_freed hpath hdisjoint) (link_freed hlink R)
      (hbound ▸ hle)
    rw [hover]
    exact bind_of_eq_error hdangling _

/-- A destructor that frees empty lists again does nothing. -/
theorem Lists.free_empty (h : Lists s [] []) : s.proactorFreeOverLists = .ok s := by
  have hover : proactorFreeOverList s.lists.overPtr s = .ok s := proactorFreeOverList_eq h.overPtr
  have hrover : proactorFreeOverList s.lists.rover s = .ok s := proactorFreeOverList_eq h.rover
  unfold proactorFreeOverLists
  dsimp only
  rw [hover]
  exact hrover

/-- What `cancel` and then `~Channel` come to. -/
theorem Lists.cancelAndDestroy_eq (h : Lists s P R) (hadded : s.added = true) :
    s.cancelAndDestroy =
      if s.isUseOver then (({ s with added := false }.freed P).freed R).proactorFreeOverLists
      else .ok (({ s with added := false }.freed P).freed R) := by
  obtain ⟨-, -, hflags₁, -⟩ := freed_members { s with added := false } P
  obtain ⟨-, -, hflags₂, -⟩ := freed_members ({ s with added := false }.freed P) R
  unfold cancelAndDestroy
  rw [h.cancel_eq hadded]
  change destroy (({ s with added := false }.freed P).freed R) = _
  unfold destroy isUseOver
  rw [hflags₂, hflags₁]
  rfl

/-- `cancel` and then `~Channel` free the lists of a channel whose destructor does not, if neither has more
than one node, and empty ones. -/
theorem Lists.cancelAndDestroy_iff (h : Lists s P R) (hadded : s.added = true) :
    FreesOnce cancelAndDestroy s (P ++ R) ↔
      (P = [] ∧ R = []) ∨ (s.isUseOver = false ∧ P.length ≤ 1 ∧ R.length ≤ 1) := by
  have hrun := h.cancelAndDestroy_eq hadded
  have hlists : Lists { s with added := false } P R := ⟨h.overPtr, h.rover, h.disjoint⟩
  have hdeleted : (({ s with added := false }.freed P).freed R).deleted =
      s.deleted ++ (P.getLast?.toList ++ R.getLast?.toList) := by
    rw [freed_deleted, freed_deleted, List.append_assoc]
  cases huse : s.isUseOver with
  | false =>
    rw [huse] at hrun
    rw [freesOnce_iff hrun hdeleted, perm_getLast_iff]
    constructor
    · exact fun hle => .inr ⟨rfl, hle⟩
    · rintro (⟨rfl, rfl⟩ | ⟨-, hle⟩)
      · exact ⟨Nat.zero_le 1, Nat.zero_le 1⟩
      · exact hle
  | true =>
    rw [huse] at hrun
    by_cases hempty : P = [] ∧ R = []
    · obtain ⟨rfl, rfl⟩ := hempty
      have hfree := hrun.trans hlists.free_empty
      exact iff_of_true ⟨_, hfree, [], (List.append_nil _).symm, List.Perm.refl _⟩ (.inl ⟨rfl, rfl⟩)
    · have herror := hrun.trans (hlists.free_again hempty)
      refine iff_of_false ?_ fun hcond => ?_
      · rintro ⟨t, ht, -⟩
        cases herror.symm.trans ht
      · obtain hcond | ⟨hfalse, -⟩ := hcond
        · exact hempty hcond
        · cases hfalse

/-- The functions free a list of any length exactly when it has at most one node; `cancel` and then `~Channel`
free the lists of a channel exactly when they are empty, or hold at most one node each and the destructor does
not free them again. -/
theorem freed_iff (s : OverChannel) :
    (∀ p xs, Path s.lists.link p xs none →
      (FreesOnce (proactorFreeOverList p) s xs ↔ xs.length ≤ 1) ∧
        (FreesOnce (iocpFreeOverList p) s xs ↔ xs.length ≤ 1)) ∧
      ∀ P R, Lists s P R → s.added = true →
        (FreesOnce cancelAndDestroy s (P ++ R) ↔
          (P = [] ∧ R = []) ∨ (s.isUseOver = false ∧ P.length ≤ 1 ∧ R.length ≤ 1)) :=
  ⟨fun _ _ h => ⟨freesOnce_freed_iff (proactorFreeOverList_eq h),
      freesOnce_freed_iff (iocpFreeOverList_eq h)⟩,
    fun _ _ h hadded => h.cancelAndDestroy_iff hadded⟩

/-- Three nodes, the first of which leads to the second. -/
def threeNodes (overPtr rover : Option ℕ) (flags : BitVec 32) : OverChannel where
  lists :=
    { OverLists.initial with
      heap := ((Heap.empty.set 0 { next := some 1 }).set 1 {}).set 2 {}
      overPtr := overPtr
      rover := rover }
  flags := flags
  added := true
  deleted := []

/-- Two lists of one node each, and a destructor that frees nothing. -/
theorem freed_iff_threeNodes :
    FreesOnce (proactorFreeOverList (some 1)) (threeNodes (some 1) (some 2) 0) [1] ∧
      FreesOnce cancelAndDestroy (threeNodes (some 1) (some 2) 0) ([1] ++ [2]) := by
  obtain ⟨hlist, hchannel⟩ := freed_iff (threeNodes (some 1) (some 2) 0)
  refine ⟨(hlist (some 1) [1] ⟨rfl, none, rfl, rfl⟩).1.mpr (Nat.le_refl 1), ?_⟩
  have hlists : Lists (threeNodes (some 1) (some 2) 0) [1] [2] :=
    ⟨⟨rfl, none, rfl, rfl⟩, ⟨rfl, none, rfl, rfl⟩, by simp⟩
  exact (hchannel [1] [2] hlists rfl).mpr (.inr ⟨rfl, Nat.le_refl 1, Nat.le_refl 1⟩)

/-- Both functions leak the first of two nodes, and `~Channel` reads the node that `cancel` has deleted. -/
theorem leaks_and_frees_again :
    (¬ ∀ s p xs, Path s.lists.link p xs none → FreesOnce (proactorFreeOverList p) s xs) ∧
      (¬ ∀ s p xs, Path s.lists.link p xs none → FreesOnce (iocpFreeOverList p) s xs) ∧
      ¬ ∀ s P R, Lists s P R → s.added = true → FreesOnce cancelAndDestroy s (P ++ R) := by
  have htwo : Path (threeNodes (some 0) none 0).lists.link (some 0) [0, 1] none :=
    ⟨rfl, some 1, rfl, rfl, none, rfl, rfl⟩
  have hone : Lists (threeNodes (some 1) none kUseOver) [1] [] :=
    ⟨⟨rfl, none, rfl, rfl⟩, rfl, by simp⟩
  refine ⟨fun h => ?_, fun h => ?_, fun h => ?_⟩
  · exact absurd ((freesOnce_freed_iff (proactorFreeOverList_eq htwo)).mp (h _ _ _ htwo)) (by decide)
  · exact absurd ((freesOnce_freed_iff (iocpFreeOverList_eq htwo)).mp (h _ _ _ htwo)) (by decide)
  · obtain ⟨t, ht, -⟩ := h _ _ _ hone rfl
    cases ht

end OverChannel

end Hulatang
