import Mathlib.Order.Basic
import Mathlib.Algebra.GroupWithZero.Nat
import Mathlib.Data.List.Basic
import Hulatang.Lib.Machine

/-!
# Reading packets off a stream

A reader is told of bytes of a stream of packets in pieces, cut anywhere, and takes at most one packet with
each piece. It looks at the head of the packet that is next whether or not that is there in full, and fails if
it is not.

Whatever is there in full but has not been taken has to wait for another piece. So the reader ends up with all
packets exactly when behind each piece there come at least as many pieces as there are packets that are not
complete by then (`run_emptied_iff`).
-/

namespace Hulatang

/-- The sizes of a packet. -/
structure StreamPacket where
  head : ℕ
  size : ℕ
  deriving DecidableEq

/-- What a reader has still to take, and how many bytes of it are there. -/
structure PacketReader where
  pending : List StreamPacket
  unread : ℕ
  deriving DecidableEq

namespace PacketReader

/-- A piece of `n` bytes arrives. -/
def step (s : PacketReader) (n : ℕ) : Option PacketReader :=
  match s.pending with
  | [] => none
  | p :: rest =>
    if s.unread + n < p.head then none
    else if s.unread + n < p.size then some ⟨p :: rest, s.unread + n⟩
    else some ⟨rest, s.unread + n - p.size⟩

/-- How many of the packets are complete in the first `n` bytes. -/
def complete : List StreamPacket → ℕ → ℕ
  | [], _ => 0
  | p :: rest, n => if n < p.size then 0 else complete rest (n - p.size) + 1

variable {s t : PacketReader} {p : StreamPacket} {rest ps : List StreamPacket} {n u : ℕ} {ns : List ℕ}

theorem complete_le : ∀ (ps : List StreamPacket) (n : ℕ), complete ps n ≤ ps.length
  | [], _ => Nat.le_refl 0
  | p :: rest, n => by
    unfold complete
    split_ifs
    · exact Nat.zero_le _
    · exact Nat.succ_le_succ (complete_le rest _)

/-- What a step does: it waits for more of the packet that is next, or takes it. -/
theorem step_eq_some_iff :
    step ⟨p :: rest, u⟩ n = some t ↔ p.head ≤ u + n ∧
      (u + n < p.size ∧ t = ⟨p :: rest, u + n⟩ ∨ p.size ≤ u + n ∧ t = ⟨rest, u + n - p.size⟩) := by
  unfold step
  dsimp only
  split_ifs with hhead hsize
  · exact iff_of_false (fun h => nomatch h) fun h => absurd h.1 (Nat.not_le.mpr hhead)
  · rw [Option.some_inj]
    refine ⟨fun h => ⟨Nat.le_of_not_lt hhead, .inl ⟨hsize, h.symm⟩⟩, ?_⟩
    rintro ⟨-, ⟨-, rfl⟩ | ⟨hle, -⟩⟩
    · rfl
    · exact absurd hsize (Nat.not_lt.mpr hle)
  · rw [Option.some_inj]
    refine ⟨fun h => ⟨Nat.le_of_not_lt hhead, .inr ⟨Nat.le_of_not_lt hsize, h.symm⟩⟩, ?_⟩
    rintro ⟨-, ⟨hlt, -⟩ | ⟨-, rfl⟩⟩
    · exact absurd hlt hsize
    · rfl

/-- Behind each piece there come enough for the packets that are not complete by then. -/
def Enough (ps : List StreamPacket) (u : ℕ) (ns : List ℕ) : Prop :=
  ps.length ≤ ns.length ∧ ∀ before after, before ≠ [] → ns = before ++ after →
    ps.length ≤ complete ps (u + before.sum) + after.length

theorem enough_nil_iff : Enough ps u [] ↔ ps = [] := by
  constructor
  · rintro ⟨hlength, -⟩
    exact List.eq_nil_of_length_eq_zero (Nat.le_zero.mp hlength)
  · rintro rfl
    exact ⟨Nat.le_refl 0, fun _ _ _ _ => Nat.zero_le _⟩

/-- A piece that does not complete the packet leaves as many to come with fewer pieces. -/
theorem enough_cons_of_lt (hsize : u + n < p.size) :
    Enough (p :: rest) u (n :: ns) ↔ Enough (p :: rest) (u + n) ns := by
  have hnone : complete (p :: rest) (u + n) = 0 := if_pos hsize
  constructor
  · rintro ⟨-, h⟩
    refine ⟨?_, fun before after hne hns => ?_⟩
    · have hfirst := h [n] ns (List.cons_ne_nil _ _) rfl
      rwa [List.sum_singleton, hnone, Nat.zero_add] at hfirst
    · have hlater := h (n :: before) after (List.cons_ne_nil _ _) (congrArg (List.cons n) hns)
      rwa [List.sum_cons, ← Nat.add_assoc] at hlater
  · rintro ⟨hlength, h⟩
    refine ⟨Nat.le_succ_of_le hlength, fun before after hne hns => ?_⟩
    obtain ⟨m, before, rfl⟩ := List.exists_cons_of_ne_nil hne
    obtain ⟨rfl, htail⟩ := List.cons.inj hns
    rw [List.sum_cons, ← Nat.add_assoc]
    by_cases hb : before = []
    · subst hb
      rw [List.sum_nil, Nat.add_zero, hnone, Nat.zero_add]
      have hall : ns.length = after.length := congrArg List.length htail
      exact hall ▸ hlength
    · exact h before after hb htail

/-- A piece that completes the packet leaves one less to come. -/
theorem enough_cons_of_le (hsize : p.size ≤ u + n) :
    Enough (p :: rest) u (n :: ns) ↔ Enough rest (u + n - p.size) ns := by
  have hsome : ∀ m, complete (p :: rest) (u + n + m) = complete rest (u + n - p.size + m) + 1 := by
    intro m
    rw [complete, if_neg (by omega), Nat.sub_add_comm hsize]
  constructor
  · rintro ⟨hlength, h⟩
    refine ⟨Nat.le_of_succ_le_succ hlength, fun before after hne hns => ?_⟩
    have hlater := h (n :: before) after (List.cons_ne_nil _ _) (congrArg (List.cons n) hns)
    rw [List.sum_cons, ← Nat.add_assoc, hsome, List.length_cons] at hlater
    omega
  · rintro ⟨hlength, h⟩
    refine ⟨Nat.succ_le_succ hlength, fun before after hne hns => ?_⟩
    obtain ⟨m, before, rfl⟩ := List.exists_cons_of_ne_nil hne
    obtain ⟨rfl, htail⟩ := List.cons.inj hns
    rw [List.sum_cons, ← Nat.add_assoc, hsome, List.length_cons]
    by_cases hb : before = []
    · subst hb
      have hall : ns.length = after.length := congrArg List.length htail
      omega
    · have hlater := h before after hb htail
      omega

/-- All packets are taken exactly when there are enough pieces. -/
theorem run_emptied_iff (h : Machine.run step ⟨ps, u⟩ ns = some t) : t.pending = [] ↔ Enough ps u ns := by
  induction ns generalizing ps u with
  | nil =>
    cases h
    exact enough_nil_iff.symm
  | cons n ns ih =>
    obtain ⟨v, hv, hrest⟩ := Machine.run_cons_eq_some h
    cases ps with
    | nil => cases hv
    | cons p rest =>
      obtain ⟨-, ⟨hsize, rfl⟩ | ⟨hsize, rfl⟩⟩ := step_eq_some_iff.mp hv
      · rw [enough_cons_of_lt hsize]
        exact ih hrest
      · rw [enough_cons_of_le hsize]
        exact ih hrest

end PacketReader

end Hulatang
