import Hulatang.Io.CycleInvariants

/-!
# Exactly once, in order, and never waiting

What the task queue is for, in every state of every run: each `createEvent` enqueues its callback
once, however often the attempts fail; the callbacks of one thread run at most once and in order; and
the loop never spins for an entry that nobody enqueued. A pass runs `max size 0` callbacks, where
`size` is the 32-bit value that it read: it runs none when more callbacks are pending than an
`int32_t` holds.
-/

namespace Hulatang.CycleEventManager

open ProducerQueue (ofProducer)

/-- The contract of the task queue. -/
structure TaskQueue (m : CycleEventManager) : Prop where
  /-- Of the callbacks of each thread, those whose `createEvent` is past its attempts have been
  enqueued, once each and in order. -/
  exactlyOnce : ∀ t, ofProducer Prod.fst t m.enqueued =
    (List.range (m.calls t + (m.create t).uncounted)).map (Prod.mk t)
  /-- A call of `createEvent` returns and has enqueued its callback once, after any number of failed
  attempts. -/
  creates : ∀ t, m.create t = .idle → m.mayCreate t = true → ∀ fails : ℕ, ∃ m',
    Machine.run step m (.createEvent t :: (List.replicate fails (.tryEnqueue t false) ++
      [.tryEnqueue t true, .incSize t])) = some m' ∧
    m'.create t = .idle ∧ m'.calls t = m.calls t + 1 ∧ m'.enqueued = m.enqueued ++ [m.callback t]
  /-- The callbacks of each thread run in the order in which it queued them, at most once each. -/
  inOrder : ∀ t, ofProducer Prod.fst t m.ran <+: ofProducer Prod.fst t m.enqueued
  /-- The dequeues that a pass has still to do find as many entries. -/
  entries : m.pc.remaining ≤ m.queue.length
  /-- A spinning pass has an entry to take. -/
  dequeues : ∀ n i, m.pc = .spin n i → ∃ k, (m.step (.tryDequeue (some k))).isSome
  /-- A pass runs as many callbacks as `size` held, and none for a negative `size`. -/
  passes : ∀ p ∈ m.passes, (p.2 : ℤ) = max p.1 0

/-- A failed attempt leaves the thread at the next one. -/
theorem run_fails (m : CycleEventManager) (t : Thread) {i : ℕ} (hc : m.create t = .trying i)
    (fails : ℕ) : ∃ i', Machine.run step m (List.replicate fails (.tryEnqueue t false)) =
      some (m.setCreate t (.trying i')) := by
  induction fails generalizing m i with
  | zero =>
    refine ⟨i, ?_⟩
    rw [List.replicate_zero, Machine.run_nil, setCreate, ← hc, Function.update_eq_self]
  | succ fails ih =>
    have hstep : m.step (.tryEnqueue t false) =
        some (m.setCreate t (.trying (if i < 50 then i + 1 else i))) := by
      simp [step, hc]
    obtain ⟨i', hrun⟩ := ih (m.setCreate t (.trying (if i < 50 then i + 1 else i)))
      (Function.update_self ..)
    refine ⟨i', ?_⟩
    rw [List.replicate_succ, Machine.run_cons, hstep, Option.bind_some, hrun]
    simp [setCreate]

/-- `createEvent` returns, with its callback at the end of the queue. -/
theorem run_createEvent (m : CycleEventManager) {t : Thread} (hc : m.create t = .idle)
    (hm : m.mayCreate t = true) (fails : ℕ) :
    Machine.run step m (.createEvent t :: (List.replicate fails (.tryEnqueue t false) ++
      [.tryEnqueue t true, .incSize t])) = some ((m.push t).count t) := by
  have hstep : m.step (.createEvent t) = some (m.setCreate t (.trying 0)) := by
    simp [step, hc, hm]
  obtain ⟨i', hrun⟩ := run_fails (m.setCreate t (.trying 0)) t (Function.update_self ..) fails
  rw [Machine.run_cons, hstep, Option.bind_some, Machine.run_append, hrun]
  simp [step, setCreate, push, count, callback]

theorem Consistent.taskQueue {m : CycleEventManager} (h : Consistent m) : TaskQueue m where
  exactlyOnce := h.enqueued
  creates t hc hm fails :=
    ⟨(m.push t).count t, run_createEvent m hc hm fails, Function.update_self .., Function.update_self ..,
      rfl⟩
  inOrder t := by
    rw [← h.order t, ProducerQueue.ofProducer_append]
    exact List.prefix_append ..
  entries := h.remaining_le_queue
  dequeues n i hpc := by
    have hrem := h.remaining_le_queue
    have hcounts := h.counts
    rw [hpc] at hrem hcounts
    simp only [CyclePc.remaining, CyclePc.Counts] at hrem hcounts
    have hne : m.queue ≠ [] := by
      intro hnil
      rw [hnil, List.length_nil] at hrem
      omega
    refine ⟨0, ?_⟩
    unfold CycleEventManager.step
    simp only [hpc, Option.isSome_map]
    exact ProducerQueue.take?_zero_isSome hne
  passes := h.passes

/-- Every state of every run satisfies the contract. -/
theorem taskQueue_of_run (ops : List Op) (m : CycleEventManager)
    (hr : Machine.run step initial ops = some m) : TaskQueue m :=
  Consistent.taskQueue <|
    Machine.run_invariant (fun _ _ _ h hs => h.step (stepped_of_step hs)) consistent_initial hr

/-- Two threads queue, and a pass runs both callbacks. -/
theorem taskQueue_two_producers : ∃ m,
    Machine.run step initial
      [.createEvent (.producer 0), .createEvent (.producer 1), .tryEnqueue (.producer 1) true,
        .tryEnqueue (.producer 0) true, .incSize (.producer 0), .incSize (.producer 1), .process, .test,
        .tryDequeue (some 1), .handlerReturned, .decSize, .test, .tryDequeue none,
        .tryDequeue (some 0), .handlerReturned, .decSize, .test] = some m ∧
      m.ran = [(.producer 0, 0), (.producer 1, 0)] ∧ TaskQueue m := by
  refine ⟨_, rfl, rfl, taskQueue_of_run
    [.createEvent (.producer 0), .createEvent (.producer 1), .tryEnqueue (.producer 1) true,
      .tryEnqueue (.producer 0) true, .incSize (.producer 0), .incSize (.producer 1), .process, .test,
      .tryDequeue (some 1), .handlerReturned, .decSize, .test, .tryDequeue none,
      .tryDequeue (some 0), .handlerReturned, .decSize, .test] _ rfl⟩

/-- A thread that has queued `n` callbacks before the loop runs any leaves the 32-bit value of `n` in
`size`. -/
theorem run_creates (t : Thread) (n : ℕ) : ∃ m,
    Machine.run step initial
      (List.replicate n [.createEvent t, .tryEnqueue t true, .incSize t]).flatten = some m ∧
    m.size = int32 n ∧ m.pc = .idle ∧ (∀ u, m.create u = .idle) ∧ m.queue.length = n ∧
      m.enqueued.length = n ∧ m.counted.length = n := by
  induction n with
  | zero => exact ⟨initial, rfl, rfl, rfl, fun _ => rfl, rfl, rfl, rfl⟩
  | succ n ih =>
    obtain ⟨m, hrun, hsize, hpc, hidle, hqueue, henqueued, hcounted⟩ := ih
    have hmay : m.mayCreate t = true := by
      cases t <;> simp [mayCreate, hpc]
    refine ⟨(m.push t).count t, ?_, ?_, hpc, fun u => ?_, ?_, ?_, ?_⟩
    · rw [List.replicate_succ', List.flatten_append, List.flatten_singleton]
      exact Machine.run_trans hrun (run_createEvent m (hidle t) hmay 0)
    · change int32 (m.size + 1) = int32 ((n + 1 : ℕ) : ℤ)
      rw [hsize, int32_add_int32]
      rfl
    · by_cases hu : u = t
      · rw [hu]
        exact Function.update_self ..
      · change Function.update (Function.update m.create t .enqueued) t .idle u = .idle
        rw [Function.update_of_ne hu, Function.update_of_ne hu, hidle]
    · exact (List.length_append ..).trans (congrArg (· + 1) hqueue)
    · exact (List.length_append ..).trans (congrArg (· + 1) henqueued)
    · exact (List.length_append ..).trans (congrArg (· + 1) hcounted)

/-- After `2^31` callbacks `size` holds `-2^31`, and a pass runs none of them. -/
theorem pass_runs_none_on_wrap :
    ¬ ∀ (ops : List Op) (m : CycleEventManager), Machine.run step initial ops = some m →
      ∀ p ∈ m.passes, (p.2 : ℤ) = p.1 := by
  intro h
  obtain ⟨m, hrun, hsize, hpc, hidle, -⟩ := run_creates (.producer 0) (2^31)
  have hneg : m.size = -2^31 := by
    rw [hsize]
    decide
  have hpass : Machine.run step m [.process, .test] =
      some { m with pc := .idle, passRan := 0, passes := (m.size, 0) :: m.passes } := by
    simp [step, hpc, hidle, hneg]
  have heq := h _ _ (Machine.run_trans hrun hpass) (m.size, 0) List.mem_cons_self
  rw [hneg] at heq
  exact absurd heq (by decide)

end Hulatang.CycleEventManager
