import Mathlib.Data.List.Nodup
import Mathlib.Data.List.ReduceOption

/-!
# Owners

Places that own at most one resource each, as objects do that release what they have when they are destroyed.
In `Owners` the resources that are there are exactly those that have an owner, and each has one; so nothing is
leaked, and nothing is released that another place still has. The operations are the ones that such objects
are made of: a new place, an acquisition, the exchange of two places, and a release.

A program has objects, of which each holds something or nothing (`Holds`), and what it does to them is one of
these operations, or two for a new object that holds something from the beginning.
-/

open scoped List

namespace Hulatang

/-- The places, and the resources that are there. -/
structure Owners (R : Type*) where
  places : List (Option R)
  live : List R
  owned : live.Perm places.reduceOption
  nodup : live.Nodup

namespace Owners

variable {R : Type*} {o : Owners R} {places : List (Option R)} {a b : Option R} {r : R} {i j : ℕ}

/-! ## What places hold -/

/-- One place holds its own, and the others the rest. -/
theorem perm_reduceOption_of_place (hi : places[i]? = some a) :
    places.reduceOption ~ a.toList ++ (places.set i none).reduceOption := by
  induction places generalizing i with
  | nil => cases hi
  | cons c rest ih =>
    cases i with
    | zero =>
      cases hi
      cases a <;> exact List.Perm.refl _
    | succ i =>
      have hrest := ih hi
      cases c with
      | none => exact hrest
      | some d =>
        rw [List.set_cons_succ, List.reduceOption_cons_of_some, List.reduceOption_cons_of_some]
        exact (hrest.cons d).trans List.perm_middle.symm

theorem getElem?_set_place (hi : places[i]? = some a) : (places.set i b)[i]? = some b := by
  obtain ⟨hlt, -⟩ := List.getElem?_eq_some_iff.mp hi
  exact List.getElem?_set_self hlt

/-- A place is given what it holds. -/
theorem set_place (hi : places[i]? = some a) : places.set i a = places := by
  obtain ⟨hlt, rfl⟩ := List.getElem?_eq_some_iff.mp hi
  exact List.set_getElem_self hlt

/-- A place is given something else to hold. -/
theorem perm_reduceOption_set (hi : places[i]? = some a) (b : Option R) :
    a.toList ++ (places.set i b).reduceOption ~ b.toList ++ places.reduceOption := by
  have hold := perm_reduceOption_of_place hi
  have hnew := perm_reduceOption_of_place (getElem?_set_place (b := b) hi)
  rw [List.set_set] at hnew
  calc a.toList ++ (places.set i b).reduceOption
      ~ a.toList ++ (b.toList ++ (places.set i none).reduceOption) := hnew.append_left _
    _ ~ b.toList ++ (a.toList ++ (places.set i none).reduceOption) := by
      rw [← List.append_assoc, ← List.append_assoc]
      exact List.perm_append_comm.append_right _
    _ ~ b.toList ++ places.reduceOption := hold.symm.append_left _

/-- Two places are given what the other holds. -/
theorem perm_reduceOption_exchange (hi : places[i]? = some a) (hj : places[j]? = some b) :
    ((places.set i b).set j a).reduceOption ~ places.reduceOption := by
  have hother : (places.set i b)[j]? = some b := by
    by_cases hij : i = j
    · subst hij
      exact getElem?_set_place hi
    · rw [List.getElem?_set_ne hij]
      exact hj
  have hfirst := perm_reduceOption_set hi b
  have hsecond := perm_reduceOption_set hother a
  exact (List.perm_append_left_iff b.toList).mp (hsecond.trans hfirst)

theorem mem_live_iff : r ∈ o.live ↔ some r ∈ o.places := by
  rw [o.owned.mem_iff, List.reduceOption_mem_iff]

/-- A resource has one owner. -/
theorem place_unique (hi : o.places[i]? = some (some r)) (hj : o.places[j]? = some (some r)) : i = j := by
  by_contra hij
  have hperm := o.owned.trans (perm_reduceOption_of_place hi)
  obtain ⟨hnot, -⟩ := List.nodup_cons.mp (hperm.nodup_iff.mp o.nodup)
  refine hnot (List.reduceOption_mem_iff.mpr (List.mem_of_getElem? (i := j) ?_))
  rw [List.getElem?_set_ne hij]
  exact hj

/-! ## Operations -/

/-- There is nothing. -/
def empty : Owners R := ⟨[], [], List.Perm.refl _, List.nodup_nil⟩

/-- A place that owns nothing. -/
def vacant (o : Owners R) : Owners R where
  places := o.places ++ [none]
  live := o.live
  owned := by
    rw [List.reduceOption_append]
    exact o.owned.trans (List.Perm.of_eq (List.append_nil _).symm)
  nodup := o.nodup

/-- A resource that was not there is given to a place. -/
def acquire (o : Owners R) (i : ℕ) (r : R) (hi : o.places[i]? = some none) (hr : r ∉ o.live) : Owners R where
  places := o.places.set i (some r)
  live := r :: o.live
  owned := (o.owned.cons r).trans (perm_reduceOption_set hi (some r)).symm
  nodup := List.nodup_cons.mpr ⟨hr, o.nodup⟩

/-- A place gives up what it owns. -/
def release [DecidableEq R] (o : Owners R) (i : ℕ) (r : R) (hi : o.places[i]? = some (some r)) :
    Owners R where
  places := o.places.set i none
  live := o.live.erase r
  owned := by
    have hperm := o.owned.trans (perm_reduceOption_of_place hi)
    have herased := hperm.erase r
    rwa [Option.toList_some, List.singleton_append, List.erase_cons_head] at herased
  nodup := o.nodup.erase r

/-- Two places exchange what they own. -/
def exchange (o : Owners R) (i j : ℕ) (hi : o.places[i]? = some a) (hj : o.places[j]? = some b) :
    Owners R where
  places := (o.places.set i b).set j a
  live := o.live
  owned := o.owned.trans (perm_reduceOption_exchange hi hj).symm
  nodup := o.nodup

/-! ## Objects -/

variable {D : Type*} {held : D → Option R} {objects : List (Option D)} {c d u v : Option D}

/-- The places are what the objects hold. An object that has been destroyed holds nothing. -/
def Holds (held : D → Option R) (objects : List (Option D)) (o : Owners R) : Prop :=
  o.places = objects.map fun d => d.bind held

theorem holds_empty : Holds held [] empty := rfl

theorem Holds.place (h : Holds held objects o) (hi : objects[i]? = some d) :
    o.places[i]? = some (d.bind held) := by
  rw [h, List.getElem?_map, hi]
  rfl

/-- What is there is what the objects hold. -/
theorem Holds.live (h : Holds held objects o) : o.live ~ (objects.map fun d => d.bind held).reduceOption :=
  o.owned.trans (List.Perm.of_eq (congrArg _ h))

/-- An object is there that holds the resource. -/
theorem Holds.mem_live (h : Holds held objects o) (hi : objects[i]? = some d) (hd : d.bind held = some r) :
    r ∈ o.live :=
  mem_live_iff.mpr (List.mem_of_getElem? ((h.place hi).trans (congrArg some hd)))

/-- There is another object, which holds nothing. -/
theorem Holds.vacant (h : Holds held objects o) (hd : d.bind held = none) :
    ∃ o' : Owners R, Holds held (objects ++ [d]) o' ∧ o'.live = o.live := by
  refine ⟨o.vacant, ?_, rfl⟩
  unfold Holds
  rw [List.map_append, ← h, List.map_singleton, hd]
  rfl

/-- An object comes to hold what it has held. -/
theorem Holds.keep (h : Holds held objects o) (hi : objects[i]? = some d) (hd : v.bind held = d.bind held) :
    Holds held (objects.set i v) o := by
  unfold Holds
  rw [List.map_set, ← h, hd]
  exact (set_place (h.place hi)).symm

theorem Holds.acquire (h : Holds held objects o) (hi : objects[i]? = some d) (hd : d.bind held = none)
    (hv : v.bind held = some r) (hr : r ∉ o.live) :
    ∃ o' : Owners R, Holds held (objects.set i v) o' ∧ o'.live = r :: o.live := by
  refine ⟨o.acquire i r ((h.place hi).trans (congrArg some hd)) hr, ?_, rfl⟩
  unfold Holds
  rw [List.map_set, ← h, hv]
  rfl

theorem Holds.release [DecidableEq R] (h : Holds held objects o) (hi : objects[i]? = some d)
    (hd : d.bind held = some r) (hv : v.bind held = none) :
    ∃ o' : Owners R, Holds held (objects.set i v) o' ∧ o'.live = o.live.erase r := by
  refine ⟨o.release i r ((h.place hi).trans (congrArg some hd)), ?_, rfl⟩
  unfold Holds
  rw [List.map_set, ← h, hv]
  rfl

theorem Holds.exchange (h : Holds held objects o) (hi : objects[i]? = some c) (hj : objects[j]? = some d)
    (hu : u.bind held = d.bind held) (hv : v.bind held = c.bind held) :
    ∃ o' : Owners R, Holds held ((objects.set i u).set j v) o' ∧ o'.live = o.live := by
  refine ⟨o.exchange i j (h.place hi) (h.place hj), ?_, rfl⟩
  unfold Holds
  rw [List.map_set, List.map_set, ← h, hu, hv]
  rfl

/-- There is another object, which holds a resource that was not there. -/
theorem Holds.push (h : Holds held objects o) (hd : d.bind held = some r) (hr : r ∉ o.live) :
    ∃ o' : Owners R, Holds held (objects ++ [d]) o' ∧ o'.live = r :: o.live := by
  obtain ⟨o₁, hvacant, hlive⟩ := h.vacant (d := none) rfl
  have hlast : (objects ++ [none])[objects.length]? = some none := List.getElem?_concat_length
  have hpush := hvacant.acquire hlast rfl hd (hlive ▸ hr)
  rw [hlive, List.set_append_right _ _ (Nat.le_refl _), Nat.sub_self] at hpush
  exact hpush

/-- There is another object, which takes what another one holds. -/
theorem Holds.move (h : Holds held objects o) (hi : objects[i]? = some c) (hu : u.bind held = none)
    (hd : d.bind held = c.bind held) :
    ∃ o' : Owners R, Holds held (objects.set i u ++ [d]) o' ∧ o'.live = o.live := by
  obtain ⟨o₁, hvacant, hlive⟩ := h.vacant (d := none) rfl
  obtain ⟨hlt, -⟩ := List.getElem?_eq_some_iff.mp hi
  have hold : (objects ++ [none])[i]? = some c := (List.getElem?_append_left hlt).trans hi
  have hlast : (objects ++ [none])[objects.length]? = some none := List.getElem?_concat_length
  have hmove := hvacant.exchange hold hlast hu hd
  rw [hlive, List.set_append_left _ _ hlt, List.set_append_right _ _ (Nat.le_of_eq List.length_set),
    List.length_set, Nat.sub_self] at hmove
  exact hmove

/-- An object takes what another one holds, and gives up what it has held. -/
theorem Holds.replace [DecidableEq R] (h : Holds held objects o) (hij : i ≠ j) (hi : objects[i]? = some d)
    (hj : objects[j]? = some c) (hd : d.bind held = some r) (hu : u.bind held = none)
    (hv : v.bind held = c.bind held) :
    ∃ o' : Owners R, Holds held ((objects.set j u).set i v) o' ∧ o'.live = o.live.erase r := by
  obtain ⟨o₁, hexchanged, hlive⟩ := h.exchange hj hi (u := d) rfl hv
  have hother : ((objects.set j d).set i v)[j]? = some d := by
    rw [List.getElem?_set_ne hij]
    exact getElem?_set_place hj
  obtain ⟨o', hreleased, herased⟩ := hexchanged.release hother hd hu
  rw [List.set_comm _ _ hij, List.set_set] at hreleased
  exact ⟨o', hreleased, hlive ▸ herased⟩

end Owners

end Hulatang
