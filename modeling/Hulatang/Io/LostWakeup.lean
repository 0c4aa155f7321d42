import Hulatang.Io.CycleInvariants
import Hulatang.Io.EventLoop

/-!
# When a wakeup is lost

`EPollFdEventManager::wakeup` is empty, so nothing ends an `epoll_wait` for a callback or a stop that
arrives after the loop has read `size` for the last time before it blocks. From that read to the end of
`epoll_wait` the loop thread is `Blocking`. A run loses no wakeup if no `++size` and no store of
`Stopping` falls into that window, and the read finds neither a stop that is already stored nor a
producer whose callback has been dequeued before its `++size` (`Timely`).

The invariant says that the loop blocks only when all counted callbacks have run. The deciding read
establishes it from `size == 0`, and the counter is exact as long as no `++size` wraps it to zero.
-/

namespace Hulatang

/-- The window between the last read of `size` before a positive timeout and the end of
`epoll_wait`. -/
def LoopPc.Blocking : LoopPc → Prop
  | .isIdleAgain _ => True
  | .startProcess blocktime => 0 < timeoutMs blocktime
  | .epollWait blocktime => 0 < timeoutMs blocktime
  | _ => False

namespace EventLoop

/-- The contract of `wakeup`: the loop thread does not block, with nothing to read, on a callback or a
stop of a call that has returned. -/
def NoLostWakeup (l : EventLoop) : Prop :=
  ∀ blocktime, l.pc = .epollWait blocktime → 0 < timeoutMs blocktime →
    l.fdEventManager.readable = false →
    (∀ f ∈ l.returned, f ∈ l.cycleEventManager.ran) ∧ l.stopReturned = false

/-- The loop thread is about to read a `size` of zero, after which it blocks. -/
def Deciding (l : EventLoop) : Prop :=
  match l.pc with
  | .isIdle => l.isIdle = true
  | .cycleIsIdle _ => l.cycleEventManager.isIdle = true
  | _ => False

/-- The steps that lose no wakeup. -/
def Timely (l : EventLoop) : Op → Prop
  | .cycle (.incSize _) => ¬ l.pc.Blocking ∧ int32 (l.cycleEventManager.size + 1) ≠ 0
  | .stop (.producer _) => ¬ l.pc.Blocking
  | .advance _ => l.Deciding → l.stopStored = false ∧
      ∀ t, l.cycleEventManager.create t = .enqueued →
        l.cycleEventManager.callback t ∈ l.cycleEventManager.queue
  | _ => True

/-! ## What the steps do -/

/-- What the loop thread does when it goes on, as far as the producers are concerned. -/
structure Advanced (l l' : EventLoop) : Prop where
  producer : l'.producer = l.producer
  returned : l'.returned = l.returned
  stopStored : l'.stopStored = l.stopStored
  stopReturned : l'.stopReturned = l.stopReturned
  /-- The task queue is left alone, or a pass over it starts. -/
  cycle : (l'.cycleEventManager = l.cycleEventManager ∧
      (l.pc = .processCycle → l.cycleEventManager.pc = .idle)) ∨
    (l'.pc = .processCycle ∧ l.cycleEventManager.step .process = some l'.cycleEventManager)
  /-- It comes to block from a deciding read. -/
  blocking : l'.pc.Blocking → l.pc.Blocking ∨ l.Deciding

/-- A step that changes no variable that another thread writes. -/
theorem Advanced.of_local {l : EventLoop} (timers : TimerEventManager) (fd : FdEventManager)
    {pc pc' : LoopPc} (hpc : l.pc = pc) (hne : pc ≠ .processCycle)
    (hb : pc'.Blocking → l.pc.Blocking ∨ l.Deciding) :
    Advanced l { l with timerEventManager := timers, fdEventManager := fd, pc := pc' } :=
  ⟨rfl, rfl, rfl, rfl, .inl ⟨rfl, fun hc => absurd (hpc.symm.trans hc) hne⟩, hb⟩

theorem advanced_of_advance {l l' : EventLoop} {now : ℤ} (h : l.advance now = some l') :
    Advanced l l' := by
  have hfalse : ∀ {p : Prop}, False → p := fun hf => hf.elim
  unfold advance at h
  cases hpc : l.pc with
  | test =>
    simp only [hpc, Option.some.injEq] at h
    subst h
    refine .of_local _ _ hpc (by simp) fun hb => ?_
    split_ifs at hb <;> exact hb.elim
  | isIdle =>
    simp only [hpc, Option.some.injEq] at h
    subst h
    refine .of_local _ _ hpc (by simp) fun hb => ?_
    split_ifs at hb with hidle
    · right
      simpa only [Deciding, hpc] using hidle
    · exact hb.elim
  | cycleIsIdle next_timeout =>
    simp only [hpc, Option.some.injEq] at h
    subst h
    refine .of_local _ _ hpc (by simp) fun hb => ?_
    split_ifs at hb with hidle
    · right
      simpa only [Deciding, hpc] using hidle
    · exact absurd hb (by decide : ¬ 0 < timeoutMs 0)
  | isIdleAgain next_timeout =>
    -- The loop is already past the deciding read.
    simp only [hpc, Option.some.injEq] at h
    subst h
    exact .of_local _ _ hpc (by simp) fun _ => .inl (hpc ▸ trivial)
  | startProcess blocktime =>
    simp only [hpc, Option.some.injEq] at h
    subst h
    exact .of_local _ _ hpc (by simp) fun hb => .inl (hpc ▸ hb)
  | nextTriggerTime =>
    simp only [hpc] at h
    split_ifs at h <;> cases h <;> exact .of_local _ _ hpc (by simp) hfalse
  | blocktimeTimers | processTimer =>
    simp only [hpc] at h
    split_ifs at h
    cases h
    exact .of_local _ _ hpc (by simp) hfalse
  | updateTime | updateTimeAgain | epollWait | endProcess | processEvent | processIdle =>
    simp only [hpc, Option.some.injEq] at h
    subst h
    exact .of_local _ _ hpc (by simp) hfalse
  | updateTimeAfter blocktime =>
    simp only [hpc, Option.some.injEq] at h
    subst h
    split_ifs <;> exact .of_local _ _ hpc (by simp) hfalse
  | choose =>
    simp only [hpc] at h
    split_ifs at h
    · cases h
      exact .of_local _ _ hpc (by simp) hfalse
    · obtain ⟨m, hm, rfl⟩ := Option.map_eq_some_iff.mp h
      exact ⟨rfl, rfl, rfl, rfl, .inr ⟨rfl, hm⟩, hfalse⟩
  | processCycle =>
    simp only [hpc] at h
    split_ifs at h with hc
    cases h
    exact ⟨rfl, rfl, rfl, rfl, .inl ⟨rfl, fun _ => hc⟩, hfalse⟩
  | exited =>
    simp only [hpc] at h
    cases h

/-- What a step of the task queue changes: the queue, and where its producer is in `queueInLoop`. -/
structure Cycled (l l' : EventLoop) (op : CycleEventManager.Op) : Prop where
  stepped : CycleEventManager.Stepped l.cycleEventManager op l'.cycleEventManager
  ne_process : op ≠ .process
  pc : l'.pc = l.pc
  returned : l'.returned = l.returned
  stopStored : l'.stopStored = l.stopStored
  stopReturned : l'.stopReturned = l.stopReturned
  producer : ∀ k, l'.producer k = l.producer k ∨ l'.producer k = .createEvent ∨
    (op = .incSize (.producer k) ∧
      l'.producer k = .wakeup (l.cycleEventManager.callback (.producer k)))

theorem cycled_of_cycleStep {l l' : EventLoop} {op : CycleEventManager.Op}
    (h : l.cycleStep op = some l') : Cycled l l' op := by
  -- The steps that move no producer.
  have hnext : op ≠ .process →
      (l.cycleEventManager.step op).map (fun m => { l with cycleEventManager := m }) = some l' →
      Cycled l l' op := by
    intro hop hn
    obtain ⟨m, hm, rfl⟩ := Option.map_eq_some_iff.mp hn
    exact ⟨CycleEventManager.stepped_of_step hm, hop, rfl, rfl, rfl, rfl, fun _ => .inl rfl⟩
  unfold cycleStep at h
  dsimp only at h
  split at h
  · cases h
  · split_ifs at h
    exact hnext (by simp) h
  · rename_i k
    split_ifs at h
    simp only [Option.map_map] at h
    obtain ⟨m, hm, rfl⟩ := Option.map_eq_some_iff.mp h
    refine ⟨CycleEventManager.stepped_of_step hm, by simp, rfl, rfl, rfl, rfl, fun j => ?_⟩
    by_cases hj : j = k
    · exact .inr (.inl (by simp [hj]))
    · exact .inl (by simp [hj])
  · rename_i k
    simp only [Option.map_map] at h
    obtain ⟨m, hm, rfl⟩ := Option.map_eq_some_iff.mp h
    refine ⟨CycleEventManager.stepped_of_step hm, by simp, rfl, rfl, rfl, rfl, fun j => ?_⟩
    by_cases hj : j = k
    · exact .inr (.inr (by simp [hj]))
    · exact .inl (by simp [hj])
  · rename_i hprocess _ _ _
    exact hnext hprocess h

/-! ## The invariant -/

/-- The loop thread blocks only when all counted callbacks have run and no stop is stored; what has
returned, or is at its `wakeup`, is counted or stored. -/
structure BlockInv (l : EventLoop) : Prop where
  consistent : l.cycleEventManager.Consistent
  exact : l.cycleEventManager.Exact
  pass : l.pc ≠ .processCycle → l.cycleEventManager.pc = .idle
  returned : ∀ f ∈ l.returned, f ∈ l.cycleEventManager.counted
  wakeup : ∀ k f, l.producer k = .wakeup f → f ∈ l.cycleEventManager.counted
  stopWakeup : ∀ k, l.producer k = .stopWakeup → l.stopStored = true
  stopReturned : l.stopReturned = true → l.stopStored = true
  blocking : l.pc.Blocking →
    (∀ f ∈ l.cycleEventManager.counted, f ∈ l.cycleEventManager.ran) ∧ l.stopStored = false

theorem blockInv_initial (currentTime : ℤ) : BlockInv (initial currentTime) where
  consistent := CycleEventManager.consistent_initial
  exact := by
    simp [CycleEventManager.Exact, initial, CycleEventManager.initial, CyclePc.inFlight]
  pass _ := rfl
  returned := by simp [initial]
  wakeup := by simp [initial]
  stopWakeup := by simp [initial]
  stopReturned := by simp [initial]
  blocking hb := hb.elim

theorem BlockInv.noLostWakeup {l : EventLoop} (h : BlockInv l) : NoLostWakeup l := by
  intro blocktime hpc htimeout _
  obtain ⟨hran, hstop⟩ := h.blocking (by rw [hpc]; exact htimeout)
  refine ⟨fun f hf => hran f (h.returned f hf), ?_⟩
  by_contra hne
  rw [h.stopReturned (by simpa using hne)] at hstop
  cases hstop

/-- A deciding read finds the queue drained. -/
theorem BlockInv.deciding {l : EventLoop} (h : BlockInv l) (hd : l.Deciding)
    (hqueue : ∀ t, l.cycleEventManager.create t = .enqueued →
      l.cycleEventManager.callback t ∈ l.cycleEventManager.queue) :
    ∀ f ∈ l.cycleEventManager.counted, f ∈ l.cycleEventManager.ran := by
  obtain ⟨hpc, hidle⟩ : l.pc ≠ .processCycle ∧ l.cycleEventManager.isIdle = true := by
    unfold Deciding at hd
    split at hd
    · rename_i hpc
      unfold isIdle at hd
      exact ⟨by simp [hpc], (Bool.and_eq_true_iff.mp hd).2⟩
    · rename_i hpc
      exact ⟨by simp [hpc], hd⟩
    · exact hd.elim
  exact h.consistent.counted_ran (h.exact.ran_of_isIdle h.consistent (h.pass hpc) hidle) hqueue

theorem BlockInv.advance {l l' : EventLoop} (h : BlockInv l) (ha : Advanced l l')
    (hg : l.Deciding → l.stopStored = false ∧
      ∀ t, l.cycleEventManager.create t = .enqueued →
        l.cycleEventManager.callback t ∈ l.cycleEventManager.queue) : BlockInv l' := by
  have hblock : l'.pc.Blocking →
      (∀ f ∈ l.cycleEventManager.counted, f ∈ l.cycleEventManager.ran) ∧ l.stopStored = false := by
    intro hb
    rcases ha.blocking hb with hb | hd
    · exact h.blocking hb
    · exact ⟨h.deciding hd (hg hd).2, (hg hd).1⟩
  obtain ⟨hsame, hpass⟩ | ⟨hpc, hprocess⟩ := ha.cycle
  · constructor
    · exact hsame ▸ h.consistent
    · exact hsame ▸ h.exact
    · intro _
      rw [hsame]
      by_cases hpc : l.pc = .processCycle
      · exact hpass hpc
      · exact h.pass hpc
    · rw [ha.returned, hsame]
      exact h.returned
    · rw [ha.producer, hsame]
      exact h.wakeup
    · rw [ha.producer, ha.stopStored]
      exact h.stopWakeup
    · rw [ha.stopReturned, ha.stopStored]
      exact h.stopReturned
    · rw [hsame, ha.stopStored]
      exact hblock
  · -- A pass starts, and the loop is not about to block.
    have hs := CycleEventManager.stepped_of_step hprocess
    have hcounted {f : Callback} (hf : f ∈ l.cycleEventManager.counted) :=
      hs.mem_counted.mpr (.inl hf)
    refine ⟨h.consistent.step hs, h.exact.step h.consistent hs (by simp), fun hne => absurd hpc hne,
      fun f hf => ?_, fun k f hf => ?_, ?_, ?_, fun hb => ?_⟩
    · exact hcounted (h.returned f (ha.returned ▸ hf))
    · exact hcounted (h.wakeup k f (ha.producer ▸ hf))
    · rw [ha.producer, ha.stopStored]
      exact h.stopWakeup
    · rw [ha.stopReturned, ha.stopStored]
      exact h.stopReturned
    · rw [hpc] at hb
      exact hb.elim

theorem BlockInv.cycle {l l' : EventLoop} {op : CycleEventManager.Op} (h : BlockInv l)
    (hc : Cycled l l' op)
    (hg : ∀ t, op = .incSize t → ¬ l.pc.Blocking ∧ int32 (l.cycleEventManager.size + 1) ≠ 0) :
    BlockInv l' := by
  have hs := hc.stepped
  have hcounted {f : Callback} (hf : f ∈ l.cycleEventManager.counted) :
      f ∈ l'.cycleEventManager.counted := hs.mem_counted.mpr (.inl hf)
  refine ⟨h.consistent.step hs, h.exact.step h.consistent hs fun t ht => (hg t ht).2, ?_,
    fun f hf => ?_, fun k f hf => ?_, fun k hk => ?_, ?_, fun hb => ?_⟩
  · intro hne
    exact hs.pc_idle (h.pass (hc.pc ▸ hne)) hc.ne_process
  · exact hcounted (h.returned f (hc.returned ▸ hf))
  · -- A producer comes to its `wakeup` from the `++size` of its own callback.
    rcases hc.producer k with hk | hk | ⟨hop, hk⟩
    · exact hcounted (h.wakeup k f (hk ▸ hf))
    · rw [hk] at hf
      cases hf
    · rw [hk] at hf
      cases hf
      exact hs.mem_counted.mpr (.inr ⟨.producer k, hop, rfl⟩)
  · rw [hc.stopStored]
    rcases hc.producer k with hk' | hk' | ⟨-, hk'⟩
    · exact h.stopWakeup k (hk' ▸ hk)
    · rw [hk'] at hk
      cases hk
    · rw [hk'] at hk
      cases hk
  · rw [hc.stopReturned, hc.stopStored]
    exact h.stopReturned
  · rw [hc.pc] at hb
    obtain ⟨hran, hstop⟩ := h.blocking hb
    refine ⟨fun f hf => hs.ran_subset ?_, hc.stopStored ▸ hstop⟩
    -- Only a `++size` could count another callback, and none falls into the window.
    rcases hs.mem_counted.mp hf with hf | ⟨t, hop, -⟩
    · exact hran f hf
    · exact absurd hb (hg t hop).1

/-- A timely step keeps the invariant. -/
theorem BlockInv.step {l l' : EventLoop} {op : Op} (h : BlockInv l) (hg : l.Timely op)
    (hs : l.step op = some l') : BlockInv l' := by
  cases op with
  | advance now =>
    simp only [EventLoop.step] at hs
    split_ifs at hs
    exact h.advance (advanced_of_advance hs) hg
  | timer op =>
    simp only [EventLoop.step, timerStep] at hs
    split_ifs at hs
    obtain ⟨m, -, rfl⟩ := Option.map_eq_some_iff.mp hs
    exact { h with }
  | cycle op =>
    refine h.cycle (cycled_of_cycleStep hs) fun t ht => ?_
    subst ht
    exact hg
  | stop t =>
    cases t with
    -- The loop thread's own `stop` is not one that another thread waits for.
    | loop =>
      simp only [EventLoop.step] at hs
      split_ifs at hs
      cases hs
      exact { h with }
    | producer k =>
      simp only [EventLoop.step] at hs
      split_ifs at hs
      cases hs
      refine { h with
        wakeup := fun j f hj => ?_
        stopWakeup := fun _ _ => rfl
        stopReturned := fun _ => rfl
        blocking := fun hb => absurd hb hg }
      change Function.update l.producer k .stopWakeup j = .wakeup f at hj
      by_cases hjk : j = k
      · rw [hjk, Function.update_self] at hj
        cases hj
      · rw [Function.update_of_ne hjk] at hj
        exact h.wakeup j f hj
  | wakeup k =>
    -- The producer that returns is out; the others are where they were.
    have hout {pc : ProducerPc} (hpc : pc ≠ .out) {j : ℕ}
        (hj : Function.update l.producer k .out j = pc) : l.producer j = pc := by
      by_cases hjk : j = k
      · rw [hjk, Function.update_self] at hj
        exact absurd hj.symm hpc
      · rwa [Function.update_of_ne hjk] at hj
    simp only [EventLoop.step] at hs
    split at hs
    · rename_i f hk
      cases hs
      refine { h with
        returned := fun g hg => ?_
        wakeup := fun j g hj => h.wakeup j g (hout (by simp) hj)
        stopWakeup := fun j hj => h.stopWakeup j (hout (by simp) hj) }
      rcases List.mem_cons.mp hg with rfl | hg
      · exact h.wakeup k _ hk
      · exact h.returned g hg
    · rename_i hk
      cases hs
      exact { h with
        wakeup := fun j g hj => h.wakeup j g (hout (by simp) hj)
        stopWakeup := fun j hj => h.stopWakeup j (hout (by simp) hj)
        stopReturned := fun _ => h.stopWakeup k hk }
    · cases hs
  | ready b =>
    cases hs
    exact { h with }

/-- A run whose steps are all timely loses no wakeup. -/
theorem noLostWakeup_of_timely (currentTime : ℤ) (ops : List Op)
    (hops : Machine.Meets step Timely (initial currentTime) ops) :
    Machine.Always step NoLostWakeup (initial currentTime) ops :=
  Machine.always_of_meets (fun _ h => h.noLostWakeup) (fun _ _ _ h hg hs => h.step hg hs)
    (blockInv_initial currentTime) hops

/-- A producer queues a callback before the loop reads `size`: the loop does not block. -/
theorem noLostWakeup_queued_before :
    Machine.Always step NoLostWakeup (initial 0)
      [.cycle (.createEvent (.producer 0)), .cycle (.tryEnqueue (.producer 0) true),
        .cycle (.incSize (.producer 0)), .wakeup 0, .advance 1, .advance 1, .advance 1, .advance 1,
        .advance 1, .advance 1] := by
  refine noLostWakeup_of_timely 0 _ ?_
  refine .cons rfl trivial <| .cons rfl trivial <| .cons rfl ⟨id, by decide⟩ <| .cons rfl trivial <|
    .cons rfl (fun hd => hd.elim) <| .cons rfl (fun hd => hd.elim) <|
    .cons rfl (fun hd => (Bool.false_ne_true hd).elim) <| .cons rfl (fun hd => hd.elim) <|
    .cons rfl (fun hd => (Bool.false_ne_true hd).elim) <| .cons rfl (fun hd => hd.elim) trivial

/-- The loop, idle, enters `epoll_wait` for ten seconds; then a producer's `queueInLoop` runs to its end,
and nothing becomes readable. -/
theorem wakeup_lost_in_epoll_wait :
    ¬ ∀ (currentTime : ℤ) (ops : List Op),
      Machine.Always step NoLostWakeup (initial currentTime) ops := by
  intro h
  have hrun := h 0 [.advance 0, .advance 0, .advance 0, .advance 0,
    .cycle (.createEvent (.producer 0)), .cycle (.tryEnqueue (.producer 0) true),
    .cycle (.incSize (.producer 0)), .wakeup 0]
  obtain ⟨hran, -⟩ := hrun.of_run rfl MaximumBlockingTime rfl (by decide) rfl
  exact absurd (hran (.producer 0, 0) List.mem_cons_self) (by decide)

end EventLoop

end Hulatang
