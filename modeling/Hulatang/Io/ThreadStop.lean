import Hulatang.Io.EventLoopThread

/-!
# When a stop is safe

A stop is safe in a run in which `threadFunc` clears `loop_` only after the owner's `stop` has
dereferenced it, and every `EventLoop::stop` stores its `Stopping` after `run` has stored `Running`
(`InTime`). The invariant follows how far the two threads are: `ThreadPc.rank` and `OwnerPc.rank`
number their places in order.
-/

namespace Hulatang

/-- How far the owner is. -/
def OwnerPc.rank : OwnerPc → ℕ
  | .idle => 0
  | .waiting => 1
  | .started => 2
  | .spin => 3
  | .storeStopping => 4
  | .deref => 5
  | .loopStop => 6
  | .wakeup => 7
  | .join => 8
  | .done => 9

/-- How far the loop's thread is; it goes from `runOnce` back to `test`. -/
def ThreadPc.rank : ThreadPc → ℕ
  | .absent => 0
  | .construct => 1
  | .storeStarting => 2
  | .callback => 3
  | .publish => 4
  | .storeRunning => 5
  | .runStarting => 6
  | .runRunning => 7
  | .test => 8
  | .runOnce => 8
  | .runStopped => 9
  | .clear => 10
  | .storeStopped => 11
  | .exited => 12

namespace EventLoopThread

/-- What a stop is to satisfy. -/
structure SafeStop (t : EventLoopThread) : Prop where
  /-- `stop` dereferences no null pointer. -/
  deref : t.owner = .deref → t.loop_ = true
  /-- `stop` waits for `Running` only while the status can come to be `Running`. -/
  reaches : t.owner = .spin →
    ∃ ops t', Machine.run step t ops = some t' ∧ t'.owner = .spin ∧ t'.status = .Running
  /-- No `Running` is stored over a `Stopping`. -/
  stopped : t.stopStored = true → t.loopStatus ≠ .Running

/-- The steps that keep a stop safe: `threadFunc` clears `loop_` after the owner has dereferenced it, and
every `EventLoop::stop` stores after `run` has stored `Running`. -/
def InTime (t : EventLoopThread) : Op → Prop
  | .thread => t.pc = .clear → OwnerPc.deref.rank < t.owner.rank
  | .owner => t.owner = .loopStop → ThreadPc.runRunning.rank < t.pc.rank
  | .taskStop => ThreadPc.runRunning.rank < t.pc.rank

instance (t : EventLoopThread) : DecidablePred t.InTime
  | .thread => inferInstanceAs (Decidable (t.pc = .clear → OwnerPc.deref.rank < t.owner.rank))
  | .owner => inferInstanceAs (Decidable (t.owner = .loopStop → ThreadPc.runRunning.rank < t.pc.rank))
  | .taskStop => inferInstanceAs (Decidable (ThreadPc.runRunning.rank < t.pc.rank))

/-- Where the two threads are determines `loop_`, and most of the statuses. -/
structure InOrder (t : EventLoopThread) : Prop where
  started : 0 < t.owner.rank ↔ 0 < t.pc.rank
  published : t.loop_ = true ↔ 5 ≤ t.pc.rank ∧ t.pc.rank ≤ 10
  cleared : 11 ≤ t.pc.rank → 6 ≤ t.owner.rank
  ready : 4 ≤ t.owner.rank → 6 ≤ t.pc.rank
  running : 6 ≤ t.pc.rank → t.owner.rank ≤ 4 → t.status = .Running
  of_running : t.status = .Running → 6 ≤ t.pc.rank
  stored : t.stopStored = true → 8 ≤ t.pc.rank ∧ t.loopStatus ≠ .Running

theorem inOrder_initial : InOrder initial := by
  constructor <;> simp [initial, OwnerPc.rank, ThreadPc.rank]

/-- The loop's thread goes on to a place that is not before its own. -/
theorem InOrder.threadTo {t : EventLoopThread} (h : InOrder t) (pc : ThreadPc)
    (status loopStatus : EnumEventLoopStatus) (loop_ : Bool) (hfrom : 0 < t.pc.rank)
    (hmono : t.pc.rank ≤ pc.rank) (hpublished : loop_ = true ↔ 5 ≤ pc.rank ∧ pc.rank ≤ 10)
    (hcleared : 11 ≤ pc.rank → 6 ≤ t.owner.rank)
    (hrunning : 6 ≤ pc.rank → t.owner.rank ≤ 4 → status = .Running)
    (hofRunning : status = .Running → 6 ≤ pc.rank)
    (hloop : 8 ≤ t.pc.rank → t.loopStatus ≠ .Running → loopStatus ≠ .Running) :
    InOrder { t with pc := pc, status := status, loopStatus := loopStatus, loop_ := loop_ } where
  started := ⟨fun _ => by show 0 < pc.rank; omega, fun _ => h.started.mpr hfrom⟩
  published := hpublished
  cleared := hcleared
  ready howner := Nat.le_trans (h.ready howner) hmono
  running := hrunning
  of_running := hofRunning
  stored hstop := by
    obtain ⟨hlate, hstopped⟩ := h.stored hstop
    exact ⟨Nat.le_trans hlate hmono, hloop hlate hstopped⟩

/-- A step that leaves `status` and `loop_` as they are. -/
theorem InOrder.threadOn {t : EventLoopThread} (h : InOrder t) (pc : ThreadPc)
    (loopStatus : EnumEventLoopStatus) (hfrom : 0 < t.pc.rank) (hmono : t.pc.rank ≤ pc.rank)
    (hpublished : 5 ≤ t.pc.rank ∧ t.pc.rank ≤ 10 ↔ 5 ≤ pc.rank ∧ pc.rank ≤ 10)
    (hcleared : pc.rank ≤ 10) (hrunning : 6 ≤ pc.rank → 6 ≤ t.pc.rank)
    (hloop : 8 ≤ t.pc.rank → t.loopStatus ≠ .Running → loopStatus ≠ .Running) :
    InOrder { t with pc := pc, loopStatus := loopStatus } :=
  h.threadTo pc t.status loopStatus t.loop_ hfrom hmono (h.published.trans hpublished)
    (fun hlate => by omega) (fun hlate => h.running (hrunning hlate))
    (fun hstatus => Nat.le_trans (h.of_running hstatus) hmono) hloop

/-- A step of the loop's thread. -/
theorem InOrder.threadStep {t t' : EventLoopThread} (h : InOrder t)
    (hg : t.pc = .clear → OwnerPc.deref.rank < t.owner.rank) (hs : t.threadStep = some t') :
    InOrder t' := by
  unfold EventLoopThread.threadStep at hs
  cases hpc : t.pc <;> simp only [hpc, Option.some.injEq, reduceCtorEq] at hs <;> subst hs
  case construct =>
    refine h.threadOn .storeStarting .Initialized ?_ ?_ ?_ ?_ ?_ ?_ <;> simp [hpc, ThreadPc.rank]
  case storeStarting =>
    refine h.threadTo .callback .Starting t.loopStatus t.loop_ ?_ ?_ ?_ ?_ ?_ ?_ ?_ <;>
      simp [hpc, h.published, ThreadPc.rank]
  case callback =>
    refine h.threadOn .publish t.loopStatus ?_ ?_ ?_ ?_ ?_ ?_ <;> simp [hpc, ThreadPc.rank]
  case publish =>
    have hstatus : t.status ≠ .Running := fun hrun =>
      absurd (h.of_running hrun) (by rw [hpc]; decide)
    refine h.threadTo .storeRunning t.status t.loopStatus true ?_ ?_ ?_ ?_ ?_ ?_ ?_ <;>
      simp [hpc, hstatus, ThreadPc.rank]
  case storeRunning =>
    refine h.threadTo .runStarting .Running t.loopStatus t.loop_ ?_ ?_ ?_ ?_ ?_ ?_ ?_ <;>
      simp [hpc, h.published, ThreadPc.rank]
  case runStarting =>
    refine h.threadOn .runRunning .Starting ?_ ?_ ?_ ?_ ?_ ?_ <;> simp [hpc, ThreadPc.rank]
  case runRunning =>
    -- No stop has been stored yet, so the `Running` is not stored over one.
    refine h.threadOn .test .Running ?_ ?_ ?_ ?_ ?_ ?_ <;> simp [hpc, ThreadPc.rank]
  case test =>
    split_ifs
    · refine h.threadOn .runOnce t.loopStatus ?_ ?_ ?_ ?_ ?_ ?_ <;> simp [hpc, ThreadPc.rank]
    · refine h.threadOn .runStopped t.loopStatus ?_ ?_ ?_ ?_ ?_ ?_ <;> simp [hpc, ThreadPc.rank]
  case runOnce =>
    refine h.threadOn .test t.loopStatus ?_ ?_ ?_ ?_ ?_ ?_ <;> simp [hpc, ThreadPc.rank]
  case runStopped =>
    refine h.threadOn .clear .Stopped ?_ ?_ ?_ ?_ ?_ ?_ <;> simp [hpc, ThreadPc.rank]
  case clear =>
    -- `loop_` is cleared, and the status ceases to be `Running`, behind the owner's back.
    have hpast : 6 ≤ t.owner.rank := hg hpc
    refine h.threadTo .storeStopped t.status t.loopStatus false ?_ ?_ ?_ ?_ ?_ ?_ ?_ <;>
      simp [hpc, ThreadPc.rank] <;> omega
  case storeStopped =>
    have hpast : 6 ≤ t.owner.rank := h.cleared (by rw [hpc]; decide)
    refine h.threadTo .exited .Stopped t.loopStatus t.loop_ ?_ ?_ ?_ ?_ ?_ ?_ ?_ <;>
      simp [hpc, h.published, ThreadPc.rank] <;> omega

/-- The owner goes on. -/
theorem InOrder.ownerTo {t : EventLoopThread} (h : InOrder t) (owner : OwnerPc)
    (hfrom : 0 < t.owner.rank) (hmono : t.owner.rank ≤ owner.rank)
    (hready : 4 ≤ owner.rank → 6 ≤ t.pc.rank) : InOrder { t with owner := owner } where
  started := ⟨fun _ => h.started.mp hfrom, fun _ => by show 0 < owner.rank; omega⟩
  published := h.published
  cleared hlate := Nat.le_trans (h.cleared hlate) hmono
  ready := hready
  running hlate howner := h.running hlate (Nat.le_trans hmono howner)
  of_running := h.of_running
  stored := h.stored

/-- A step of the owner. -/
theorem InOrder.ownerStep {t t' : EventLoopThread} (h : InOrder t)
    (hg : t.owner = .loopStop → ThreadPc.runRunning.rank < t.pc.rank) (hs : t.ownerStep = some t') :
    InOrder t' := by
  unfold EventLoopThread.ownerStep at hs
  cases ho : t.owner <;> simp only [ho, Option.some.injEq] at hs
  case done => cases hs
  case idle =>
    -- The loop's thread is absent until the owner starts it.
    subst hs
    have habsent : t.pc.rank = 0 := by
      have hstarted := h.started
      rw [ho] at hstarted
      exact Nat.eq_zero_of_not_pos fun hpos => absurd (hstarted.mpr hpos) (by decide)
    have hpublished := h.published
    have hofRunning := h.of_running
    have hstored := h.stored
    rw [habsent] at hpublished hofRunning hstored
    constructor <;> simp [OwnerPc.rank, ThreadPc.rank] <;> simp_all
  case waiting =>
    split_ifs at hs
    cases hs
    exact h.ownerTo .started (by rw [ho]; decide) (by rw [ho]; decide) (by simp [OwnerPc.rank])
  case started =>
    subst hs
    exact h.ownerTo .spin (by rw [ho]; decide) (by rw [ho]; decide) (by simp [OwnerPc.rank])
  case spin =>
    -- Only `threadFunc` has stored `Running`, so it is past that store when the owner sees it.
    subst hs
    split_ifs with hrun
    · exact h.ownerTo .storeStopping (by rw [ho]; decide) (by rw [ho]; decide)
        fun _ => h.of_running hrun
    · exact h
  case storeStopping =>
    subst hs
    have hready : 6 ≤ t.pc.rank := h.ready (by rw [ho]; decide)
    have hnext := h.ownerTo .deref (by rw [ho]; decide) (by rw [ho]; decide) fun _ => hready
    -- The owner is past the place at which `Running` matters to it.
    exact { hnext with
      running := fun _ howner => absurd howner (by show ¬ OwnerPc.deref.rank ≤ 4; decide)
      of_running := fun _ => hready }
  case deref =>
    split_ifs at hs
    cases hs
    exact h.ownerTo .loopStop (by rw [ho]; decide) (by rw [ho]; decide)
      fun _ => h.ready (by rw [ho]; decide)
  case loopStop =>
    subst hs
    -- `run` has stored its `Running` already, so the `Stopping` stays.
    have hlate : 8 ≤ t.pc.rank := hg ho
    have hnext := h.ownerTo .wakeup (by rw [ho]; decide) (by rw [ho]; decide)
      fun _ => h.ready (by rw [ho]; decide)
    exact { hnext with stored := fun _ => ⟨hlate, fun hstatus => nomatch hstatus⟩ }
  case wakeup =>
    subst hs
    exact h.ownerTo .join (by rw [ho]; decide) (by rw [ho]; decide)
      fun _ => h.ready (by rw [ho]; decide)
  case join =>
    split_ifs at hs
    cases hs
    exact h.ownerTo .done (by rw [ho]; decide) (by rw [ho]; decide)
      fun _ => h.ready (by rw [ho]; decide)

theorem InOrder.step {t t' : EventLoopThread} {op : Op} (h : InOrder t) (hg : t.InTime op)
    (hs : t.step op = some t') : InOrder t' := by
  cases op with
  | owner => exact h.ownerStep hg hs
  | thread => exact h.threadStep hg hs
  | taskStop =>
    unfold EventLoopThread.step at hs
    dsimp only at hs
    split_ifs at hs
    cases hs
    have hlate : 8 ≤ t.pc.rank := hg
    exact { h with stored := fun _ => ⟨hlate, by simp [storeLoopStopping]⟩ }

/-- A thread that has started and is not past its store of `Running` gets there by its own steps. -/
theorem run_to_running (t : EventLoopThread) (h : 0 < t.pc.rank) (h' : t.pc.rank ≤ 5) :
    ∃ t', Machine.run EventLoopThread.step t (List.replicate (6 - t.pc.rank) .thread) = some t' ∧
      t'.owner = t.owner ∧ t'.status = .Running := by
  obtain ⟨owner, pc, status, loop_, loopStatus, stopStored⟩ := t
  cases pc with
  | construct | storeStarting | callback | publish | storeRunning => exact ⟨_, rfl, rfl, rfl⟩
  | absent => simp [ThreadPc.rank] at h
  | _ => simp [ThreadPc.rank] at h'

theorem InOrder.safeStop {t : EventLoopThread} (h : InOrder t) : SafeStop t where
  deref ho := by
    have hready := h.ready
    have hcleared := h.cleared
    rw [ho] at hready hcleared
    simp only [OwnerPc.rank] at hready hcleared
    exact h.published.mpr (by omega)
  reaches ho := by
    -- Past its store of `Running` the status is `Running`; before it, the thread gets there alone.
    by_cases hrun : 6 ≤ t.pc.rank
    · exact ⟨[], t, rfl, ho, h.running hrun (by rw [ho]; decide)⟩
    · have hstarted := h.started.mp (by rw [ho]; decide)
      obtain ⟨t', hreach, hspin, hrunning⟩ := run_to_running t hstarted (by omega)
      exact ⟨_, t', hreach, hspin.trans ho, hrunning⟩
  stopped hstored := (h.stored hstored).2

/-- In a run whose steps are all in time, every stop is safe. -/
theorem safeStop_of_inTime (ops : List Op) (hops : Machine.Meets step InTime initial ops) :
    Machine.Always step SafeStop initial ops :=
  Machine.always_of_meets (fun _ h => h.safeStop) (fun _ _ _ h hg hs => h.step hg hs) inOrder_initial
    hops

/-- The owner stops a loop that is in its first iteration, and joins its thread. -/
theorem safeStop_running :
    Machine.Always step SafeStop initial
      (.owner :: List.replicate 8 .thread ++ List.replicate 7 .owner ++ List.replicate 5 .thread ++
        [.owner]) :=
  safeStop_of_inTime _ (by decide)

/-- The owner stops a loop whose thread has published `Running` and not yet entered `run`, which then
stores `Running` over the `Stopping`. -/
theorem stop_is_overwritten : ¬ ∀ ops : List Op, Machine.Always step SafeStop initial ops := by
  intro h
  have hrun := h (.owner :: List.replicate 5 .thread ++ List.replicate 6 .owner ++
    List.replicate 2 .thread)
  exact (hrun.of_run rfl).stopped rfl rfl

end EventLoopThread

end Hulatang
