import Mathlib.Data.List.Nodup
import Mathlib.Data.List.Perm.Subperm

/-!
# Queues that keep the order of each producer

A concurrent queue of several producers may hand out the entries of different producers in any order,
and keeps the order of each one. Linearized, it is a list of the entries in the order in which they
were enqueued, and a dequeue takes any entry that is the first of its producer. `producer` says who
enqueued an entry, `ofProducer` is the subsequence of one producer, and `take?` takes an entry.

What a consumer needs is `Takes.ofProducer`: what has been taken, followed by what is still queued, is
for each producer what it was before.
-/

namespace Hulatang.ProducerQueue

variable {α ι : Type*} [DecidableEq ι]

/-- The entries of one producer, in their order. -/
def ofProducer (producer : α → ι) (t : ι) (l : List α) : List α :=
  l.filter fun f => producer f = t

/-- Take the entry at the place `k`, which must be the first of its producer. -/
def take? (producer : α → ι) (k : ℕ) (l : List α) : Option (α × List α) :=
  match l.drop k with
  | [] => none
  | f :: rest =>
    if ∀ g ∈ l.take k, producer g ≠ producer f then some (f, l.take k ++ rest) else none

/-- Taking `f` from `l` leaves `l'`. -/
inductive Takes (producer : α → ι) (l : List α) (f : α) (l' : List α) : Prop
  | intro (before rest : List α) (hl : l = before ++ f :: rest) (hl' : l' = before ++ rest)
      (hfirst : ∀ g ∈ before, producer g ≠ producer f)

variable {producer : α → ι} {t : ι} {f : α} {l l' : List α}

theorem takes_of_take? {k : ℕ} (h : take? producer k l = some (f, l')) :
    Takes producer l f l' := by
  unfold take? at h
  split at h
  · cases h
  · rename_i g rest hdrop
    split_ifs at h with hfirst
    cases h
    refine .intro (l.take k) rest ?_ rfl hfirst
    rw [← hdrop, List.take_append_drop]

/-- The first entry of a queue can be taken. -/
theorem take?_zero_isSome (h : l ≠ []) : (take? producer 0 l).isSome := by
  cases l with
  | nil => exact absurd rfl h
  | cons f rest => simp [take?]

@[simp] theorem ofProducer_append (l₁ l₂ : List α) :
    ofProducer producer t (l₁ ++ l₂) = ofProducer producer t l₁ ++ ofProducer producer t l₂ :=
  List.filter_append ..

theorem ofProducer_singleton_self (f : α) : ofProducer producer (producer f) [f] = [f] := by
  simp [ofProducer]

theorem ofProducer_singleton_of_ne (f : α) (h : producer f ≠ t) : ofProducer producer t [f] = [] := by
  simp [ofProducer, h]

omit [DecidableEq ι] in
theorem Takes.length (h : Takes producer l f l') : l.length = l'.length + 1 := by
  obtain ⟨before, rest, rfl, rfl, -⟩ := h
  simp only [List.length_append, List.length_cons]
  omega

omit [DecidableEq ι] in
/-- What is taken was queued, and the rest of the queue stays. -/
theorem Takes.mem_iff (h : Takes producer l f l') {g : α} : g ∈ l ↔ g = f ∨ g ∈ l' := by
  obtain ⟨before, rest, rfl, rfl, -⟩ := h
  simp only [List.mem_append, List.mem_cons]
  constructor
  · rintro (hg | rfl | hg)
    · exact .inr (.inl hg)
    · exact .inl rfl
    · exact .inr (.inr hg)
  · rintro (rfl | hg | hg)
    · exact .inr (.inl rfl)
    · exact .inl hg
    · exact .inr (.inr hg)

/-- A take keeps the order of every producer: the taken entries followed by the queued ones are what
they were. -/
theorem Takes.ofProducer (h : Takes producer l f l') (taken : List α) (t : ι) :
    ofProducer producer t (taken ++ [f] ++ l') = ofProducer producer t (taken ++ l) := by
  obtain ⟨before, rest, rfl, rfl, hfirst⟩ := h
  have hcons : before ++ f :: rest = before ++ ([f] ++ rest) := rfl
  rw [hcons]
  simp only [ofProducer_append, List.append_assoc, List.append_cancel_left_eq]
  by_cases ht : producer f = t
  · -- Nothing of this producer comes before the entry.
    have hbefore : ProducerQueue.ofProducer producer t before = [] := by
      refine List.filter_eq_nil_iff.mpr fun g hg hgt => hfirst g hg ?_
      rw [of_decide_eq_true hgt, ht]
    rw [hbefore, List.nil_append, List.nil_append]
  · rw [ofProducer_singleton_of_ne f ht, List.nil_append, List.nil_append]

theorem mem_ofProducer_self : f ∈ ofProducer producer (producer f) l ↔ f ∈ l := by
  simp [ofProducer]

/-- Lists that agree on every producer have the same entries. -/
theorem mem_congr (h : ∀ t, ofProducer producer t l = ofProducer producer t l') :
    f ∈ l ↔ f ∈ l' := by
  have hl : f ∈ ofProducer producer (producer f) l ↔ f ∈ l := mem_ofProducer_self
  rw [← hl, h, mem_ofProducer_self]

/-- A list in which no producer has an entry twice has none twice. -/
theorem nodup_of_ofProducer (h : ∀ t, (ofProducer producer t l).Nodup) : l.Nodup := by
  induction l with
  | nil => exact List.nodup_nil
  | cons f l ih =>
    refine List.nodup_cons.mpr ⟨fun hf => ?_, ih fun t => ?_⟩
    · have hnodup := h (producer f)
      -- A second `f` would be a second one of its own producer.
      have hcons : ofProducer producer (producer f) (f :: l) =
          f :: ofProducer producer (producer f) l := by
        simp [ofProducer]
      rw [hcons] at hnodup
      exact (List.nodup_cons.mp hnodup).1 (mem_ofProducer_self.mpr hf)
    · exact (h t).sublist ((List.sublist_cons_self f l).filter _)

/-- Distinct entries of a list are not more than its entries. -/
theorem length_le_of_subset (hl : l.Nodup) (h : ∀ g ∈ l, g ∈ l') : l.length ≤ l'.length :=
  (hl.subperm h).length_le

end Hulatang.ProducerQueue
