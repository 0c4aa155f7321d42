import Hulatang.Base.BufferAppend

/-!
# A buffer that has been moved from

The move constructor is the only one that leaves an object without storage: it swaps with indices of zero and
an empty vector. What is done with such an object afterwards keeps its indices inside of its vector, also
where it grows to fewer than eight bytes, except for one thing: whatever empties it ends in `retrieveAll`,
which sets both indices to eight. From there `writableBytes` wraps around, so that `append` finds room at a
place that is not there.

The queues that the buffers stand for are carried along, so that a state says what is to be read of each.
-/

namespace Hulatang

/-- `BufferEndian b(std::move(a))`: `b`, and what is left of `a`. -/
def Buffer.moveConstruct (a : Buffer) : Buffer × Buffer := (a, ⟨[], 0, 0⟩)

/-- Buffers by name, and the bytes that were put into each and not taken. -/
structure MovedPool (ι : Type*) where
  pool : BufferPool ι
  queues : ByteQueues ι

namespace MovedPool

variable {ι : Type*} [DecidableEq ι]

def initial (sizes : ι → ℕ) : MovedPool ι := ⟨.initial sizes, .empty⟩

/-- The steps of a run: those of a pool, and the operations on two buffers that it has not. -/
inductive Op (ι : Type*)
  | pool (op : BufferPool.Op ι)
  /-- The buffer `i` is constructed from `j` by a move. -/
  | moveConstruct (i j : ι)
  /-- It is constructed or assigned from `j` by a copy. -/
  | copy (i j : ι)
  /-- `append(buffer)`, of whatever bytes it hands to `append(data, len)`. -/
  | appendBuffer (i j : ι)
  deriving DecidableEq

/-- The buffer `i` is assigned, and its queue. -/
def assign (s : MovedPool ι) (i : ι) (b : Buffer) (xs : List NoInit) : MovedPool ι where
  pool := { s.pool with buffers := Function.update s.pool.buffers i b, returned := [] }
  queues := { queues := Function.update s.queues.queues i xs, returned := [] }

/-- One step. -/
def step (s : MovedPool ι) : Op ι → Option (MovedPool ι)
  | .pool op => (s.pool.step op).map fun p => ⟨p, s.queues.next op⟩
  | .moveConstruct i j =>
    if s.pool.fault = none ∧ i ≠ j then
      let (b, left) := (s.pool.buffers j).moveConstruct
      some ((s.assign i b (s.queues.queues j)).assign j left [])
    else none
  | .copy i j =>
    if s.pool.fault = none then some (s.assign i (s.pool.buffers j) (s.queues.queues j)) else none
  | .appendBuffer i j =>
    if s.pool.fault = none ∧ i ≠ j then
      let b := s.pool.buffers j
      match (s.pool.buffers i).appendBuffer b with
      | .ok a => some (s.assign i a (s.queues.queues i ++ segment b.buffer b.copied.1 b.copied.2))
      | .error .lengthError => none
      | .error .assertion => some { s with pool := { s.pool with fault := some .assertion } }
    else none

/-- The indices of every buffer are in order and inside of its vector, `writableBytes` does not wrap, each
buffer reads what it should, and no assertion has failed. -/
structure Sound (s : MovedPool ι) : Prop where
  represents : s.pool.Represents s.queues
  writable : ∀ i, (s.pool.buffers i).writerIndex + (s.pool.buffers i).writableBytes =
    (s.pool.buffers i).buffer.length

/-- What empties a buffer finds a vector of eight bytes. -/
def FindsPlace (s : MovedPool ι) : Op ι → Prop
  | .pool op => s.pool.FindsPlace op
  | _ => True

instance (s : MovedPool ι) : DecidablePred s.FindsPlace
  | .pool op => inferInstanceAs (Decidable (s.pool.FindsPlace op))
  | .moveConstruct _ _ | .copy _ _ | .appendBuffer _ _ => inferInstanceAs (Decidable True)

variable {s t : MovedPool ι}

omit [DecidableEq ι] in
theorem sound_of_represents (h : s.pool.Represents s.queues) : Sound s where
  represents := h
  writable i := by
    have hwriter := (h.valid i).writer_le
    rw [(h.valid i).writableBytes_eq]
    omega

theorem Sound.assign (h : Sound s) (i : ι) {b : Buffer} (hvalid : b.Valid) {xs : List NoInit}
    (hview : b.toStringView = xs) : Sound (s.assign i b xs) :=
  sound_of_represents (h.represents.update i hvalid hview [])

/-- A step that finds the place keeps everything. -/
theorem Sound.step (h : Sound s) {op : Op ι} (hplace : s.FindsPlace op) (hs : s.step op = some t) :
    Sound t := by
  cases op with
  | pool op =>
    obtain ⟨p, hp, rfl⟩ := Option.map_eq_some_iff.mp hs
    exact sound_of_represents (h.represents.step hplace hp).1
  | moveConstruct i j =>
    simp only [MovedPool.step] at hs
    split_ifs at hs
    cases hs
    have hleft : Buffer.Valid ⟨[], 0, 0⟩ := ⟨Nat.le_refl 0, Nat.le_refl 0, Nat.zero_le _⟩
    exact (h.assign i (h.represents.valid j) (h.represents.contents j)).assign j hleft rfl
  | copy i j =>
    simp only [MovedPool.step] at hs
    split_ifs at hs
    cases hs
    exact h.assign i (h.represents.valid j) (h.represents.contents j)
  | appendBuffer i j =>
    simp only [MovedPool.step] at hs
    split_ifs at hs
    rcases (h.represents.valid i).appendBuffer (h.represents.valid j) with
      ⟨a, happend, hkept, hview⟩ | ⟨hfault, -⟩
    · rw [happend] at hs
      cases hs
      rw [h.represents.contents] at hview
      exact h.assign i hkept.valid hview
    · rw [hfault] at hs
      cases hs

/-- What empties a buffer that has no such place breaks it. -/
theorem Sound.not_step (h : Sound s) {op : Op ι} (hplace : ¬ s.FindsPlace op) (hs : s.step op = some t) :
    ¬ Sound t := by
  cases op with
  | pool op =>
    cases op with
    | on i op =>
      obtain ⟨p, hp, rfl⟩ := Option.map_eq_some_iff.mp hs
      unfold BufferPool.step at hp
      rw [if_pos h.represents.asserted] at hp
      dsimp only at hp
      split_ifs at hp with hpre
      obtain ⟨hlength, returned, hcall⟩ := BufferOp.call_of_not_findsPlace hpre hplace
      rw [hcall] at hp
      cases hp
      intro hsound
      have hwriter := (hsound.represents.valid i).writer_le
      change (Function.update s.pool.buffers i (s.pool.buffers i).retrieveAll i).writerIndex ≤
        (Function.update s.pool.buffers i (s.pool.buffers i).retrieveAll i).buffer.length at hwriter
      rw [Function.update_self] at hwriter
      exact absurd hwriter (Nat.not_le_of_lt hlength)
    | swap | moveAssign => exact absurd trivial hplace
  | moveConstruct | copy | appendBuffer => exact absurd trivial hplace

/-- Every run keeps the buffers sound, exactly when whatever empties a buffer in it finds a vector of eight
bytes. -/
theorem sound_iff_findsPlace (sizes : ι → ℕ) (hsizes : ∀ i, Buffer.kCheapPrepend + sizes i ≤ maxSize)
    (ops : List (Op ι)) :
    Machine.Always step Sound (initial sizes) ops ↔ Machine.Meets step FindsPlace (initial sizes) ops := by
  have hinitial : Sound (initial sizes) :=
    sound_of_represents (BufferPool.implements_initial hsizes).represents
  refine Machine.always_iff_meets (fun _ h => h) (D := fun _ _ => True) (fun s op t h _ hs => ?_) hinitial
    (Machine.meets_of_labels fun _ _ => trivial)
  refine ⟨⟨fun ht => ?_, fun hplace => h.step hplace hs⟩, fun hplace => h.step hplace hs⟩
  by_contra hplace
  exact h.not_step hplace hs ht

/-- Both buffers are used after the move, and neither is emptied before its vector has grown. -/
theorem sound_after_move : Machine.Always step Sound (initial fun _ : Bool => 0)
    [.pool (.on false (.append ⟨[1, 2, 3], by decide⟩)), .moveConstruct true false,
      .pool (.on false (.append ⟨[4, 5], by decide⟩)), .pool (.on false (.retrieve 1)),
      .appendBuffer true false, .pool (.on true .retrieveAll),
      .pool (.on false (.append ⟨[6, 7, 8, 9, 10, 11], by decide⟩)), .pool (.on false (.retrieve 7))] := by
  refine (sound_iff_findsPlace (fun _ => 0) (by decide) _).mpr ?_
  decide +kernel

/-- A buffer that has been moved from is retrieved, and both indices are beyond its empty vector. -/
theorem not_sound_retrieved :
    ¬ ∀ ops : List (Op Bool), Machine.Always step Sound (initial fun _ => 0) ops := by
  intro h
  have hruns : (Machine.run step (initial fun _ : Bool => 0)
      [.moveConstruct true false, .pool (.on false (.retrieve 0))]).map
        (fun s => ((s.pool.buffers false).writerIndex, (s.pool.buffers false).buffer.length)) =
      some (8, 0) := by decide +kernel
  obtain ⟨s, hr, hindices⟩ := Option.map_eq_some_iff.mp hruns
  obtain ⟨hwriter, hlength⟩ : (s.pool.buffers false).writerIndex = 8 ∧
      (s.pool.buffers false).buffer.length = 0 := by
    simpa only [Prod.mk.injEq] using hindices
  have hle := (((h _).of_run hr).represents.valid false).writer_le
  rw [hwriter, hlength] at hle
  exact absurd hle (by decide)

end MovedPool

end Hulatang
