import Mathlib.Tactic.SplitIfs
import Hulatang.Io.LostWakeup
import Hulatang.Io.TaskQueue
import Hulatang.Io.TimerInvariants

/-!
# How long the loop may block

`calculationBlocktime` has five exits. It returns `0` where it has found callbacks in the queue, and else a
time between `1ms` and `MaximumBlockingTime` after which no pending timer is overdue by more than what the
`1ms` adds. The timers may change in the middle, in the pass that it makes over the due ones; the set is
sorted again when `nextTriggerTime` is read for the last time.

What it reads of the queue is `size`, a 32-bit counter that `createEvent` increments after it has enqueued:
the number of queued callbacks less those that are not counted yet, modulo `2^32`. A handler that queues
`2^32` callbacks leaves it at zero. The read that decides is that of the first `isIdle()` if the loop is idle
there, and else that of `cycleEventManager.isIdle()`, behind the due timers. The second `isIdle()` reads
`size` once more, but only chooses between `MaximumBlockingTime` and what is left until the next timer.
-/

namespace Hulatang

/-- A loop, and what was queued when `calculationBlocktime` read `size` at its first `isIdle()`, or at
`cycleEventManager.isIdle()` if it has come to that. -/
structure BlocktimeLoop where
  loop : EventLoop
  /-- How many callbacks were in the queue. -/
  queued : ℕ
  /-- How many calls of `createEvent` had enqueued theirs and not come to `++size`. -/
  creating : ℕ

namespace EventLoop

/-- The steps in which `calculationBlocktime` reads `size` to see whether there are callbacks: the first
`isIdle()`, and `cycleEventManager.isIdle()`. -/
def readsSize (l : EventLoop) : Op → Bool
  | .advance _ =>
    match l.pc with
    | .isIdle => true
    | .cycleIsIdle _ => true
    | _ => false
  | _ => false

/-- A step on one-shot timers. -/
def Op.OneShot : Op → Prop
  | .timer op => op.OneShot
  | _ => True

end EventLoop

namespace BlocktimeLoop

def initial (currentTime : ℤ) : BlocktimeLoop := ⟨.initial currentTime, 0, 0⟩

/-- One step of the loop. -/
def step (s : BlocktimeLoop) (op : EventLoop.Op) : Option BlocktimeLoop :=
  (s.loop.step op).map fun loop =>
    { loop := loop
      queued := if s.loop.readsSize op then s.loop.cycleEventManager.queue.length else s.queued
      creating :=
        if s.loop.readsSize op then
          s.loop.cycleEventManager.enqueued.length - s.loop.cycleEventManager.counted.length
        else s.creating }

/-- Nothing that is queued was counted. -/
def Uncounted (s : BlocktimeLoop) : Prop := s.queued % 2^32 = s.creating % 2^32

/-- What `calculationBlocktime` may return. -/
structure Bounded (s : BlocktimeLoop) (b : ℤ) : Prop where
  queued : ¬ s.Uncounted → b = 0
  range : s.Uncounted → 1000 ≤ b ∧ b ≤ MaximumBlockingTime
  timers : ∀ w ∈ s.loop.timerEventManager.timerSet,
    b ≤ max 1000 (s.loop.timerEventManager.getTimeout w - s.loop.timerEventManager.loopTime)

end BlocktimeLoop

/-! ## The task queue of the loop -/

namespace EventLoop

/-- The task queue is consistent, and a pass over it runs only in `processCycle`. -/
structure CycleInv (l : EventLoop) : Prop where
  consistent : l.cycleEventManager.Consistent
  pass : l.pc ≠ .processCycle → l.cycleEventManager.pc = .idle

theorem cycleInv_initial (currentTime : ℤ) : CycleInv (initial currentTime) :=
  ⟨CycleEventManager.consistent_initial, fun _ => rfl⟩

theorem CycleInv.step {l l' : EventLoop} {op : Op} (h : CycleInv l) (hs : l.step op = some l') :
    CycleInv l' := by
  cases op with
  | advance now =>
    simp only [EventLoop.step] at hs
    split_ifs at hs
    have hadvanced := advanced_of_advance hs
    obtain ⟨hsame, hpass⟩ | ⟨hpc, hprocess⟩ := hadvanced.cycle
    · refine ⟨hsame ▸ h.consistent, fun _ => ?_⟩
      rw [hsame]
      by_cases hpc : l.pc = .processCycle
      · exact hpass hpc
      · exact h.pass hpc
    · exact ⟨h.consistent.step (CycleEventManager.stepped_of_step hprocess), fun hne => absurd hpc hne⟩
  | timer op =>
    simp only [EventLoop.step, timerStep] at hs
    split_ifs at hs
    obtain ⟨m, -, rfl⟩ := Option.map_eq_some_iff.mp hs
    exact ⟨h.consistent, h.pass⟩
  | cycle op =>
    have hcycled := cycled_of_cycleStep hs
    refine ⟨h.consistent.step hcycled.stepped, fun hne => ?_⟩
    exact hcycled.stepped.pc_idle (h.pass (hcycled.pc ▸ hne)) hcycled.ne_process
  | stop t =>
    cases t <;> simp only [EventLoop.step] at hs <;> split_ifs at hs <;> cases hs <;>
      exact ⟨h.consistent, h.pass⟩
  | wakeup k =>
    simp only [EventLoop.step] at hs
    split at hs <;> cases hs <;> exact ⟨h.consistent, h.pass⟩
  | ready b =>
    cases hs
    exact ⟨h.consistent, h.pass⟩

/-- Outside a pass, `size` is zero when what is queued and what is not counted agree modulo `2^32`. -/
theorem CycleInv.isIdle_iff {l : EventLoop} (h : CycleInv l) (hpc : l.pc ≠ .processCycle) :
    l.cycleEventManager.isIdle = true ↔
      l.cycleEventManager.queue.length % 2^32 =
        (l.cycleEventManager.enqueued.length - l.cycleEventManager.counted.length) % 2^32 := by
  have hsize := h.consistent.size_eq
  have hlength := h.consistent.length
  have hle := h.consistent.counted_le
  have hran := h.consistent.ran_le
  rw [h.pass hpc] at hsize
  unfold CycleEventManager.isIdle
  rw [decide_eq_true_eq, hsize]
  simp only [CyclePc.inFlight, int32, Int.bmod_eq_emod]
  split_ifs <;> omega

/-! ## The timers of the loop -/

theorem timers_of_cycleStep {l l' : EventLoop} {op : CycleEventManager.Op} (h : l.cycleStep op = some l') :
    l'.timerEventManager = l.timerEventManager := by
  unfold cycleStep at h
  dsimp only at h
  split at h
  · cases h
  · split_ifs at h
    obtain ⟨m, -, rfl⟩ := Option.map_eq_some_iff.mp h
    rfl
  · split_ifs at h
    simp only [Option.map_map] at h
    obtain ⟨m, -, rfl⟩ := Option.map_eq_some_iff.mp h
    rfl
  · simp only [Option.map_map] at h
    obtain ⟨m, -, rfl⟩ := Option.map_eq_some_iff.mp h
    rfl
  · obtain ⟨m, -, rfl⟩ := Option.map_eq_some_iff.mp h
    rfl

/-- A step on the timers is one of a pass, or of a handler. -/
theorem stepped_of_timerStep {l l' : EventLoop} {op : TimerEventManager.Op} (h : l.timerStep op = some l') :
    ∃ m, l.timerEventManager.Stepped op m ∧ l' = { l with timerEventManager := m } ∧
      (l.timerEventManager.pc = .outside → l.inHandler = true ∧ m.pc = .outside) := by
  unfold timerStep at h
  dsimp only at h
  split_ifs at h with henabled
  obtain ⟨m, hm, rfl⟩ := Option.map_eq_some_iff.mp h
  have hs := TimerEventManager.stepped_of_step hm
  refine ⟨m, hs, rfl, fun hpc => ?_⟩
  cases hs with
  | updateTime | process => cases henabled
  | create w timer => exact ⟨henabled, hpc⟩
  | cancel w => exact ⟨henabled, hpc⟩
  | visitEnd c hhead | visitLater c w hhead | visitDue c w hhead =>
    rw [hpc] at hhead
    cases hhead
  | returned c it w hhandling | rearmed c it w i r r' hhandling =>
    rw [hpc] at hhandling
    cases hhandling

/-- What `nextTriggerTime` gives is not later than any timer, where there is one. -/
theorem nextTriggerTime_le {m : TimerEventManager} (h : m.Ordered) {w : ℕ} (hw : w ∈ m.timerSet) :
    m.nextTriggerTime ≤ m.getTimeout w - m.loopTime := by
  unfold TimerEventManager.nextTriggerTime
  obtain ⟨first, hfirst⟩ := Option.isSome_iff_exists.mp (List.isSome_head?.mpr (List.ne_nil_of_mem hw))
  rw [hfirst]
  exact Int.sub_le_sub_right (h.sorted.head_le hfirst w hw) _

end EventLoop

namespace BlocktimeLoop

open EventLoop

variable {s t : BlocktimeLoop}

/-- What holds at each place of the loop thread. -/
def At (s : BlocktimeLoop) : LoopPc → Prop
  | .blocktimeTimers => True
  | .processTimer => True
  | .cycleIsIdle next_timeout =>
    s.loop.timerEventManager.pc = .outside ∧ next_timeout = s.loop.timerEventManager.nextTriggerTime
  | .isIdleAgain next_timeout =>
    s.loop.timerEventManager.pc = .outside ∧ next_timeout = s.loop.timerEventManager.nextTriggerTime ∧
      s.Uncounted
  | .startProcess b => s.loop.timerEventManager.pc = .outside ∧ s.Bounded b
  | _ => s.loop.timerEventManager.pc = .outside

/-- The invariant of a loop with one-shot timers. -/
structure Inv (s : BlocktimeLoop) : Prop where
  timers : s.loop.timerEventManager.OneShots
  cycle : CycleInv s.loop
  at_pc : s.At s.loop.pc

theorem inv_initial (currentTime : ℤ) : Inv (initial currentTime) where
  timers := TimerEventManager.oneShots_initial currentTime
  cycle := cycleInv_initial currentTime
  at_pc := rfl

/-- Outside of the two passes over the timers none is running. -/
theorem At.outside {pc : LoopPc} (h : s.At pc) (hblocktime : pc ≠ .blocktimeTimers)
    (hprocess : pc ≠ .processTimer) : s.loop.timerEventManager.pc = .outside := by
  cases pc with
  | blocktimeTimers => exact absurd rfl hblocktime
  | processTimer => exact absurd rfl hprocess
  | cycleIsIdle | isIdleAgain | startProcess => exact h.1
  | _ => exact h

/-- A step that leaves the timers and what has been read of the queue. -/
theorem At.congr {pc : LoopPc} (h : s.At pc) (htimers : t.loop.timerEventManager = s.loop.timerEventManager)
    (hqueued : t.queued = s.queued) (hcreating : t.creating = s.creating) : t.At pc := by
  have huncounted : t.Uncounted ↔ s.Uncounted := by
    unfold Uncounted
    rw [hqueued, hcreating]
  cases pc with
  | blocktimeTimers | processTimer => trivial
  | cycleIsIdle next_timeout =>
    unfold At at h ⊢
    rw [htimers]
    exact h
  | isIdleAgain next_timeout =>
    unfold At at h ⊢
    rw [htimers, huncounted]
    exact h
  | startProcess b =>
    obtain ⟨houtside, hbounded⟩ := h
    refine ⟨by rw [htimers]; exact houtside, fun hq => hbounded.queued (mt huncounted.mpr hq),
      fun hq => hbounded.range (huncounted.mp hq), ?_⟩
    rw [htimers]
    exact hbounded.timers
  | _ => exact (congrArg TimerEventManager.pc htimers).trans h

/-- The second `isIdle`, and the clamp behind it. -/
theorem Inv.bounded_again (h : Inv s) {next_timeout : ℤ} (hpc : s.loop.pc = .isIdleAgain next_timeout) :
    s.Bounded (if s.loop.isIdle then MaximumBlockingTime else clampBlocktime next_timeout) := by
  have hat := h.at_pc
  rw [hpc] at hat
  obtain ⟨-, rfl, huncounted⟩ := hat
  refine ⟨fun hq => absurd huncounted hq, fun _ => ?_, fun w hw => ?_⟩
  · unfold clampBlocktime MaximumBlockingTime
    split_ifs <;> omega
  · have hle := nextTriggerTime_le h.timers.ordered hw
    have hbusy : ¬ s.loop.isIdle = true := by
      intro hidle
      have hempty := (Bool.and_eq_true_iff.mp hidle).1
      exact List.ne_nil_of_mem hw (List.isEmpty_iff.mp hempty)
    rw [if_neg hbusy]
    unfold clampBlocktime
    split_ifs <;> omega

/-- The clock is read. -/
theorem Inv.updateTime (h : Inv s) (now : ℤ) : (s.loop.updateTime now).timerEventManager.OneShots :=
  h.timers.step (.updateTime now) trivial

/-- A read of `size` finds it zero or not. -/
theorem Inv.isIdle_iff (h : Inv s) (l : EventLoop) (hpc : s.loop.pc ≠ .processCycle) :
    s.loop.cycleEventManager.isIdle = true ↔
      Uncounted
        { loop := l
          queued := s.loop.cycleEventManager.queue.length
          creating := s.loop.cycleEventManager.enqueued.length - s.loop.cycleEventManager.counted.length } :=
  h.cycle.isIdle_iff hpc

/-- The loop thread goes on. -/
theorem Inv.advance (h : Inv s) {now : ℤ} (hs : s.step (.advance now) = some t) : Inv t := by
  obtain ⟨l, hl, rfl⟩ := Option.map_eq_some_iff.mp hs
  have hcycle := h.cycle.step hl
  simp only [EventLoop.step] at hl
  split_ifs at hl
  unfold EventLoop.advance at hl
  have hat := h.at_pc
  cases hpc : s.loop.pc with
  | test =>
    simp only [hpc, Option.some.injEq] at hl
    rw [hpc] at hat
    subst hl
    refine ⟨h.timers, hcycle, ?_⟩
    show BlocktimeLoop.At _ (if s.loop.status = .Running then .updateTime else .exited)
    split_ifs <;> exact hat
  | updateTime =>
    simp only [hpc, Option.some.injEq] at hl
    rw [hpc] at hat
    subst hl
    exact ⟨h.updateTime now, hcycle, hat⟩
  | isIdle =>
    have hreads : s.loop.readsSize (.advance now) = true := by simp [readsSize, hpc]
    have hread := h.isIdle_iff s.loop (by simp [hpc])
    simp only [hpc, Option.some.injEq] at hl
    rw [hpc] at hat
    subst hl
    refine ⟨h.timers, hcycle, ?_⟩
    simp only [hreads, if_true]
    by_cases hidle : s.loop.isIdle = true
    · -- This read is the one that the result is about, since the function returns here.
      obtain ⟨htimers, hempty⟩ := Bool.and_eq_true_iff.mp hidle
      simp only [hidle, if_true]
      refine ⟨hat, fun hq => absurd (hread.mp hempty) hq, fun _ => by decide, fun w hw => ?_⟩
      exact absurd (List.isEmpty_iff.mp htimers) (List.ne_nil_of_mem hw)
    · simp only [hidle]
      exact hat
  | nextTriggerTime =>
    simp only [hpc] at hl
    rw [hpc] at hat
    split_ifs at hl
    · cases hl
      exact ⟨h.timers.step (.process hat) trivial, hcycle, trivial⟩
    · cases hl
      exact ⟨h.timers, hcycle, hat, rfl⟩
  | blocktimeTimers | processTimer =>
    simp only [hpc] at hl
    split_ifs at hl with houtside
    cases hl
    exact ⟨h.timers, hcycle, houtside⟩
  | updateTimeAgain =>
    simp only [hpc, Option.some.injEq] at hl
    rw [hpc] at hat
    subst hl
    exact ⟨h.updateTime now, hcycle, hat, rfl⟩
  | cycleIsIdle next_timeout =>
    have hreads : s.loop.readsSize (.advance now) = true := by simp [readsSize, hpc]
    have hread := h.isIdle_iff s.loop (by simp [hpc])
    simp only [hpc, Option.some.injEq] at hl
    rw [hpc] at hat
    subst hl
    refine ⟨h.timers, hcycle, ?_⟩
    simp only [hreads, if_true]
    by_cases hidle : s.loop.cycleEventManager.isIdle = true
    · simp only [hidle, if_true]
      exact ⟨hat.1, hat.2, hread.mp hidle⟩
    · -- Callbacks are counted, and the time is zero.
      simp only [hidle]
      exact ⟨hat.1, fun _ => rfl, fun hq => absurd (hread.mpr hq) hidle, fun w _ => by omega⟩
  | isIdleAgain next_timeout =>
    -- The second `isIdle` only chooses between two times, and both are bounded.
    have hbounded := h.bounded_again hpc
    simp only [hpc, Option.some.injEq] at hl
    rw [hpc] at hat
    subst hl
    have hreads : s.loop.readsSize (.advance now) = false := by simp [readsSize, hpc]
    refine ⟨h.timers, hcycle, hat.1, ?_⟩
    simp only [hreads]
    exact ⟨hbounded.queued, hbounded.range, hbounded.timers⟩
  | startProcess | epollWait | endProcess | processEvent | processIdle =>
    simp only [hpc, Option.some.injEq] at hl
    rw [hpc] at hat
    subst hl
    exact ⟨h.timers, hcycle, hat.outside (by simp) (by simp)⟩
  | updateTimeAfter blocktime =>
    simp only [hpc, Option.some.injEq] at hl
    rw [hpc] at hat
    subst hl
    refine ⟨?_, hcycle, trivial⟩
    by_cases hlong : 500 < blocktime
    · simp only [hlong, if_true]
      exact (h.updateTime now).step (.process hat) trivial
    · simp only [hlong, if_false]
      exact h.timers.step (.process hat) trivial
  | choose =>
    simp only [hpc] at hl
    rw [hpc] at hat
    split_ifs at hl
    · cases hl
      exact ⟨h.timers, hcycle, hat⟩
    · obtain ⟨m, -, rfl⟩ := Option.map_eq_some_iff.mp hl
      exact ⟨h.timers, hcycle, hat⟩
  | processCycle =>
    simp only [hpc] at hl
    rw [hpc] at hat
    split_ifs at hl
    cases hl
    exact ⟨h.timers, hcycle, hat⟩
  | exited =>
    simp only [hpc] at hl
    cases hl

theorem Inv.step (h : Inv s) {op : EventLoop.Op} (hop : op.OneShot) (hs : s.step op = some t) : Inv t := by
  cases op with
  | advance now => exact h.advance hs
  | timer op =>
    obtain ⟨l, hl, rfl⟩ := Option.map_eq_some_iff.mp hs
    have hcycle := h.cycle.step hl
    simp only [EventLoop.step] at hl
    split_ifs at hl
    obtain ⟨m, hstepped, rfl, houtside⟩ := stepped_of_timerStep hl
    refine ⟨h.timers.step hstepped hop, hcycle, ?_⟩
    have hat := h.at_pc
    show BlocktimeLoop.At _ s.loop.pc
    cases hpc : s.loop.pc with
    | blocktimeTimers | processTimer => trivial
    | cycleIsIdle | isIdleAgain | startProcess =>
      -- No user code runs there.
      rw [hpc] at hat
      have hhandler := (houtside hat.1).1
      unfold inHandler at hhandler
      rw [hpc] at hhandler
      cases hhandler
    | _ =>
      rw [hpc] at hat
      exact (houtside hat).2
  | cycle op =>
    obtain ⟨l, hl, rfl⟩ := Option.map_eq_some_iff.mp hs
    have htimers := timers_of_cycleStep hl
    refine ⟨htimers ▸ h.timers, h.cycle.step hl, ?_⟩
    have hpc := (cycled_of_cycleStep hl).pc
    show BlocktimeLoop.At _ l.pc
    rw [hpc]
    exact h.at_pc.congr htimers rfl rfl
  | stop thread =>
    obtain ⟨l, hl, rfl⟩ := Option.map_eq_some_iff.mp hs
    have hcycle := h.cycle.step hl
    cases thread <;> simp only [EventLoop.step] at hl <;> split_ifs at hl <;> cases hl <;>
      exact ⟨h.timers, hcycle, h.at_pc.congr rfl rfl rfl⟩
  | wakeup k =>
    obtain ⟨l, hl, rfl⟩ := Option.map_eq_some_iff.mp hs
    have hcycle := h.cycle.step hl
    simp only [EventLoop.step] at hl
    split at hl <;> cases hl <;> exact ⟨h.timers, hcycle, h.at_pc.congr rfl rfl rfl⟩
  | ready b =>
    obtain ⟨l, hl, rfl⟩ := Option.map_eq_some_iff.mp hs
    have hcycle := h.cycle.step hl
    cases hl
    exact ⟨h.timers, hcycle, h.at_pc.congr rfl rfl rfl⟩

/-! ## What `calculationBlocktime` returns -/

/-- The first iteration, in a handler of a descriptor, with the task queue given. -/
def handling (m : CycleEventManager) : EventLoop :=
  { EventLoop.initial 0 with cycleEventManager := m, pc := .processEvent MaximumBlockingTime false }

end BlocktimeLoop

end Hulatang
