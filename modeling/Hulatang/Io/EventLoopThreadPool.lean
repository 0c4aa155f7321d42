import Mathlib.Data.Int.CardIntervalMod
import Hulatang.Lib.Machine

/-!
# `EventLoopThreadPool`

The loops of a pool, the base loop first, and how they are chosen: `getNextLoop` goes round, and
`getLoopForHash` reduces a hash code. The threads behind the loops are those of `EventLoopThread`; here
they are the loops that `startLoop` has returned.

Whatever calls are made, and from whatever place, each of them returns, and `getNextLoop` gives each loop its
share of its calls, rounded down or up (`balanced_of_run`).
-/

namespace Hulatang

/-- `EventLoopThreadPool`, after `start`. -/
structure EventLoopThreadPool (Loop : Type*) where
  loops_ : List Loop
  next_ : ℕ

namespace EventLoopThreadPool

variable {Loop : Type*}

/-- `start`, which asserts that there is a thread; the base loop is the first of them, and `startLoop` has
returned the other loops. -/
def start (baseLoop : Loop) (numThreads_ : ℕ) (startLoop : ℕ → Loop) : Option (EventLoopThreadPool Loop) :=
  if 0 < numThreads_ then
    some { loops_ := baseLoop :: (List.range (numThreads_ - 1)).map startLoop, next_ := 0 }
  else none

/-- `getNextLoop`; without loops it divides by zero. -/
def getNextLoop (p : EventLoopThreadPool Loop) : Option (Loop × EventLoopThreadPool Loop) :=
  let next_ := (p.next_ + 1) % p.loops_.length
  p.loops_[next_]?.map fun loop => (loop, { p with next_ := next_ })

/-- `getLoopForHash`. -/
def getLoopForHash (p : EventLoopThreadPool Loop) (hashCode : ℕ) : Option Loop :=
  p.loops_[hashCode % p.loops_.length]?

/-- There is a loop, and `next_` is the place of one. -/
structure Started (p : EventLoopThreadPool Loop) : Prop where
  next_lt : p.next_ < p.loops_.length

theorem started_of_start {baseLoop : Loop} {numThreads_ : ℕ} {startLoop : ℕ → Loop}
    {p : EventLoopThreadPool Loop} (h : start baseLoop numThreads_ startLoop = some p) :
    Started p ∧ p.loops_.length = numThreads_ := by
  unfold start at h
  split_ifs at h with hpos
  cases h
  have hlength : (baseLoop :: (List.range (numThreads_ - 1)).map startLoop).length = numThreads_ := by
    rw [List.length_cons, List.length_map, List.length_range]
    omega
  exact ⟨⟨by rw [hlength]; exact hpos⟩, hlength⟩

variable {p p' : EventLoopThreadPool Loop}

theorem Started.pos (h : Started p) : 0 < p.loops_.length := Nat.lt_of_le_of_lt (Nat.zero_le _) h.next_lt

/-- The loop after the last one that was given. -/
theorem Started.getNextLoop (h : Started p) :
    ∃ loop, p.loops_[(p.next_ + 1) % p.loops_.length]? = some loop ∧
      p.getNextLoop = some (loop, { p with next_ := (p.next_ + 1) % p.loops_.length }) := by
  have hlt : (p.next_ + 1) % p.loops_.length < p.loops_.length := Nat.mod_lt _ h.pos
  refine ⟨p.loops_[(p.next_ + 1) % p.loops_.length], List.getElem?_eq_getElem hlt, ?_⟩
  unfold EventLoopThreadPool.getNextLoop
  dsimp only
  rw [List.getElem?_eq_getElem hlt]
  rfl

/-- Every hash code has a loop. -/
theorem Started.getLoopForHash (h : Started p) (hashCode : ℕ) :
    ∃ loop ∈ p.loops_, p.getLoopForHash hashCode = some loop := by
  have hlt : hashCode % p.loops_.length < p.loops_.length := Nat.mod_lt _ h.pos
  exact ⟨_, List.getElem_mem hlt, List.getElem?_eq_getElem hlt⟩

/-! ## Runs of calls -/

/-- The calls. -/
inductive Call
  | getNextLoop
  | getLoopForHash (hashCode : ℕ)
  deriving DecidableEq

/-- A pool, and the loops that `getNextLoop` has returned. -/
structure Calls (Loop : Type*) where
  pool : EventLoopThreadPool Loop
  given : List Loop

/-- One call. -/
def Calls.step (s : Calls Loop) : Call → Option (Calls Loop)
  | .getNextLoop => s.pool.getNextLoop.map fun r => { pool := r.2, given := s.given ++ [r.1] }
  | .getLoopForHash hashCode => (s.pool.getLoopForHash hashCode).map fun _ => s

/-- From a pool on, the loops have been given in turn. -/
structure InTurn (p : EventLoopThreadPool Loop) (s : Calls Loop) : Prop where
  loops : s.pool.loops_ = p.loops_
  next_ : s.pool.next_ = (p.next_ + s.given.length) % p.loops_.length
  given : ∀ j < s.given.length, s.given[j]? = p.loops_[(p.next_ + 1 + j) % p.loops_.length]?

theorem inTurn_nil (h : Started p) : InTurn p ⟨p, []⟩ :=
  ⟨rfl, (Nat.mod_eq_of_lt h.next_lt).symm, fun _ hj => absurd hj (Nat.not_lt_zero _)⟩

theorem InTurn.started {s : Calls Loop} (h : InTurn p s) (hp : Started p) : Started s.pool := by
  constructor
  rw [h.next_, h.loops]
  exact Nat.mod_lt _ hp.pos

/-- A call returns, and `getNextLoop` gives the next loop. -/
theorem InTurn.step {s : Calls Loop} (h : InTurn p s) (hp : Started p) (call : Call) :
    ∃ s', s.step call = some s' ∧ InTurn p s' ∧
      s'.given.length = s.given.length + [call].count .getNextLoop := by
  cases call with
  | getLoopForHash hashCode =>
    obtain ⟨loop, -, hloop⟩ := (h.started hp).getLoopForHash hashCode
    exact ⟨s, congrArg (Option.map _) hloop, h, rfl⟩
  | getNextLoop =>
    obtain ⟨loop, hloop, hnext⟩ := (h.started hp).getNextLoop
    have hturn : (s.pool.next_ + 1) % s.pool.loops_.length =
        (p.next_ + (s.given.length + 1)) % p.loops_.length := by
      rw [h.loops, h.next_, Nat.mod_add_mod, Nat.add_assoc]
    refine ⟨_, congrArg (Option.map _) hnext, ⟨h.loops, ?_, fun j hj => ?_⟩, List.length_append⟩
    · show (s.pool.next_ + 1) % s.pool.loops_.length = (p.next_ + (s.given ++ [loop]).length) % _
      rw [hturn, List.length_append, List.length_singleton]
    · change j < (s.given ++ [loop]).length at hj
      show (s.given ++ [loop])[j]? = _
      rw [List.length_append, List.length_singleton] at hj
      rcases Nat.lt_succ_iff_lt_or_eq.mp hj with hlt | rfl
      · rw [List.getElem?_append_left hlt]
        exact h.given j hlt
      · rw [List.getElem?_concat_length, ← hloop, hturn, h.loops]
        congr 2
        omega

/-- Every run of calls returns. -/
theorem InTurn.run {s : Calls Loop} (h : InTurn p s) (hp : Started p) (calls : List Call) :
    ∃ s', Machine.run Calls.step s calls = some s' ∧ InTurn p s' ∧
      s'.given.length = s.given.length + calls.count .getNextLoop := by
  induction calls generalizing s with
  | nil => exact ⟨s, rfl, h, rfl⟩
  | cons call calls ih =>
    obtain ⟨t, ht, hturn, hgiven⟩ := h.step hp call
    obtain ⟨u, hu, hturn', hgiven'⟩ := ih hturn
    refine ⟨u, Option.bind_eq_some_iff.mpr ⟨t, ht, hu⟩, hturn', ?_⟩
    rw [hgiven', hgiven, Nat.add_assoc, ← List.count_append, List.singleton_append]

/-! ## Shares -/

/-- In a run of consecutive numbers, one residue comes up as often as any other, or once more. -/
theorem count_residue {n : ℕ} (hn : 0 < n) {i : ℕ} (hi : i < n) (start k : ℕ) :
    k / n ≤ Nat.count (fun j => (start + j) % n = i) k ∧
      Nat.count (fun j => (start + j) % n = i) k ≤ k / n + 1 := by
  -- The numbers of that residue are those congruent to the distance from the start to it.
  have hdistance : ∀ j, (start + j) % n = i ↔ j ≡ i + (n - start % n) [MOD n] := by
    intro j
    have hstart := Nat.mod_lt start hn
    have hcancel : (start + (i + (n - start % n))) % n = i := by
      have hsum : start + (i + (n - start % n)) = i + n * (start / n + 1) := by
        have hdiv := Nat.div_add_mod start n
        rw [Nat.mul_add, Nat.mul_one]
        omega
      rw [hsum, Nat.add_mul_mod_self_left, Nat.mod_eq_of_lt hi]
    constructor
    · intro hj
      have hcongr : start + j ≡ start + (i + (n - start % n)) [MOD n] := hj.trans hcancel.symm
      exact Nat.ModEq.add_left_cancel' start hcongr
    · intro hj
      exact (show _ % n = _ % n from Nat.ModEq.add_left start hj).trans hcancel
  simp only [hdistance]
  rw [Nat.count_modEq_card _ hn]
  split_ifs <;> omega

/-- How often a place has been given, where the loops are different from each other. -/
theorem InTurn.count [DecidableEq Loop] {s : Calls Loop} (h : InTurn p s) (hp : Started p)
    (hnodup : p.loops_.Nodup) {i : ℕ} (hi : i < p.loops_.length) :
    s.given.count p.loops_[i] =
      Nat.count (fun j => (p.next_ + 1 + j) % p.loops_.length = i) s.given.length := by
  -- The first calls, and one more of them each time.
  have htake : ∀ k ≤ s.given.length, (s.given.take k).count p.loops_[i] =
      Nat.count (fun j => (p.next_ + 1 + j) % p.loops_.length = i) k := by
    intro k
    induction k with
    | zero => exact fun _ => rfl
    | succ k ih =>
      intro hk
      have hloop := h.given k hk
      rw [List.getElem?_eq_getElem hk, List.getElem?_eq_getElem (Nat.mod_lt _ hp.pos)] at hloop
      rw [List.take_succ_eq_append_getElem hk, List.count_append, ih (Nat.le_of_succ_le hk),
        List.count_singleton, Option.some.inj hloop, Nat.count_succ]
      simp only [beq_iff_eq, hnodup.getElem_inj_iff]
  have hall := htake s.given.length (Nat.le_refl _)
  rwa [List.take_length] at hall

/-- What the calls of a run, whatever they are, have given to each loop of a pool. -/
structure Balanced [DecidableEq Loop] (p : EventLoopThreadPool Loop) (calls : List Call) (s : Calls Loop) :
    Prop where
  given : s.given.length = calls.count .getNextLoop
  share : ∀ loop ∈ p.loops_, calls.count .getNextLoop / p.loops_.length ≤ s.given.count loop ∧
    s.given.count loop ≤ calls.count .getNextLoop / p.loops_.length + 1
  member : ∀ loop ∈ s.given, loop ∈ p.loops_
  found : ∀ hashCode, ∃ loop ∈ p.loops_, s.pool.getLoopForHash hashCode = some loop

theorem InTurn.balanced [DecidableEq Loop] {s : Calls Loop} (h : InTurn p s) (hp : Started p)
    (hnodup : p.loops_.Nodup) {calls : List Call} (hgiven : s.given.length = calls.count .getNextLoop) :
    Balanced p calls s := by
  refine ⟨hgiven, fun loop hloop => ?_, fun loop hloop => ?_, fun hashCode => ?_⟩
  · obtain ⟨i, hi, rfl⟩ := List.mem_iff_getElem.mp hloop
    rw [h.count hp hnodup hi, ← hgiven]
    exact count_residue hp.pos hi (p.next_ + 1) s.given.length
  · obtain ⟨j, hj, rfl⟩ := List.mem_iff_getElem.mp hloop
    have hturn := h.given j hj
    rw [List.getElem?_eq_getElem hj] at hturn
    exact List.mem_of_getElem? hturn.symm
  · rw [← h.loops]
    exact (h.started hp).getLoopForHash hashCode

/-- Every run of calls returns, and gives each loop its share, rounded down or up, from whatever loop it
begins with. -/
theorem balanced_of_run [DecidableEq Loop] (p : EventLoopThreadPool Loop) (hp : Started p)
    (hnodup : p.loops_.Nodup) (calls : List Call) :
    ∃ s, Machine.run Calls.step ⟨p, []⟩ calls = some s ∧ Balanced p calls s := by
  obtain ⟨s, hs, hturn, hgiven⟩ := (inTurn_nil hp).run hp calls
  exact ⟨s, hs, hturn.balanced hp hnodup (by simpa using hgiven)⟩

/-- Three loops, from the second on. -/
theorem balanced_three :
    ∃ s, Machine.run Calls.step ⟨⟨[10, 20, 30], 1⟩, []⟩
        [.getNextLoop, .getNextLoop, .getLoopForHash 7, .getNextLoop, .getNextLoop] = some s ∧
      Balanced ⟨[10, 20, 30], 1⟩
        [.getNextLoop, .getNextLoop, .getLoopForHash 7, .getNextLoop, .getNextLoop] s :=
  balanced_of_run ⟨[10, 20, 30], 1⟩ ⟨by decide⟩ (by decide) _

end EventLoopThreadPool

end Hulatang
