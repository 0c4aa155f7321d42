import Mathlib.Data.List.Rotate

/-!
# Pipes

The purpose of an outgoing stream: what is accepted at one end is delivered at the other, in order and
once. A `Pipe` carries that as a field, so that an implementation that refines it, entry by entry and
delivery by delivery, loses, repeats and reorders nothing.

Pipes in series are a pipe (`join`). A pipe that is primed with a block and then fed with what it delivers
is a ring: the block goes round in it (`queued_of_ring`, `delivered_of_ring`).
-/

namespace Hulatang

/-- What has been accepted is what has been delivered and then what is queued. -/
structure Pipe (α : Type*) where
  accepted : List α
  delivered : List α
  queued : List α
  conserved : delivered ++ queued = accepted

namespace Pipe

variable {α : Type*}

/-- Nothing has been accepted. -/
def empty : Pipe α := ⟨[], [], [], rfl⟩

/-- Accept `xs`. -/
def push (p : Pipe α) (xs : List α) : Pipe α where
  accepted := p.accepted ++ xs
  delivered := p.delivered
  queued := p.queued ++ xs
  conserved := by rw [← p.conserved, List.append_assoc]

/-- Deliver the first `n` that are queued. -/
def pop (p : Pipe α) (n : ℕ) : Pipe α where
  accepted := p.accepted
  delivered := p.delivered ++ p.queued.take n
  queued := p.queued.drop n
  conserved := by rw [List.append_assoc, List.take_append_drop, p.conserved]

/-- What has been accepted is determined by where it is. -/
theorem eq_of_places {p q : Pipe α} (hdelivered : p.delivered = q.delivered) (hqueued : p.queued = q.queued) :
    p = q := by
  obtain ⟨_, _, _, hp⟩ := p
  obtain ⟨_, _, _, hq⟩ := q
  dsimp only at hdelivered hqueued
  subst hdelivered hqueued hp hq
  rfl

theorem pop_zero (p : Pipe α) : p.pop 0 = p := by
  unfold pop
  simp

/-- What has been delivered was accepted first. -/
theorem delivered_prefix_accepted (p : Pipe α) : p.delivered <+: p.accepted :=
  ⟨p.queued, p.conserved⟩

/-- So it is with what is about to be delivered. -/
theorem pending_prefix_accepted (p : Pipe α) (n : ℕ) :
    p.delivered ++ p.queued.take n <+: p.accepted :=
  (p.pop n).delivered_prefix_accepted

/-- Two pipes in series, the second fed with what the first delivers, and what is between them. -/
def join (p q : Pipe α) (between : List α) (h : q.accepted ++ between = p.delivered) : Pipe α where
  accepted := p.accepted
  delivered := q.delivered
  queued := q.queued ++ between ++ p.queued
  conserved := by
    rw [← p.conserved, ← h, ← q.conserved, List.append_assoc, List.append_assoc, List.append_assoc]

/-! ## Rings -/

/-- What is left of a block when as much has left at its front as has come in behind it. -/
theorem eq_rotate_of_append {block out rest : List α} (h : out ++ rest = block ++ out) :
    rest = block.rotate out.length := by
  induction hn : out.length using Nat.strong_induction_on generalizing out with
  | _ n ih =>
    subst hn
    rcases Nat.lt_or_ge out.length block.length with hlt | hge
    · -- Within the first turn, what is left is the end of the block and what has left.
      obtain ⟨tail, rfl⟩ := List.prefix_of_prefix_length_le (h ▸ List.prefix_append out rest)
        (List.prefix_append block out) (Nat.le_of_lt hlt)
      rw [List.append_assoc] at h
      rw [List.rotate_append_length_eq]
      exact List.append_cancel_left h
    · cases block with
      | nil =>
        rw [List.rotate_nil]
        exact List.append_cancel_left (h.trans (List.append_nil out).symm)
      | cons b bs =>
        -- A whole turn changes nothing.
        obtain ⟨later, rfl⟩ := List.prefix_of_prefix_length_le (List.prefix_append (b :: bs) out)
          (h ▸ List.prefix_append out rest) hge
        rw [List.append_assoc] at h
        have hlength : later.length < (b :: bs ++ later).length := by
          rw [List.length_append, List.length_cons]
          omega
        have hlater := ih later.length hlength (List.append_cancel_left h) rfl
        rw [hlater, List.length_append, ← List.rotate_mod (b :: bs) ((b :: bs).length + later.length),
          Nat.add_mod_left, List.rotate_mod]

/-- What has left is the block, again and again. -/
theorem getElem?_of_append {block out rest : List α} (hblock : block ≠ [])
    (h : out ++ rest = block ++ out) {i : ℕ} (hi : i < out.length) : out[i]? = block[i % block.length]? := by
  have hpos := List.length_pos_iff.mpr hblock
  induction hn : i using Nat.strong_induction_on generalizing i with
  | _ n ih =>
    subst hn
    have hsame : out[i]? = (block ++ out)[i]? := by rw [← h, List.getElem?_append_left hi]
    rcases Nat.lt_or_ge i block.length with hlt | hge
    · rw [hsame, List.getElem?_append_left hlt, Nat.mod_eq_of_lt hlt]
    · -- One turn earlier.
      rw [hsame, List.getElem?_append_right hge, ih (i - block.length) (by omega) (by omega) rfl,
        ← Nat.mod_eq_sub_mod hge]

variable {p : Pipe α} {block : List α}

theorem queued_of_ring (h : p.accepted = block ++ p.delivered) :
    p.queued = block.rotate p.delivered.length :=
  eq_rotate_of_append (p.conserved.trans h)

theorem delivered_of_ring (hblock : block ≠ []) (h : p.accepted = block ++ p.delivered) {i : ℕ}
    (hi : i < p.delivered.length) : p.delivered[i]? = block[i % block.length]? :=
  getElem?_of_append hblock (p.conserved.trans h) hi

end Pipe

end Hulatang
