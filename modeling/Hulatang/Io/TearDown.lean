import Mathlib.Data.List.Count
import Mathlib.Tactic.SplitIfs
import Hulatang.Io.TCPConnection

/-!
# A connection is torn down once

Every call of `closeCallback` removes the connection and has it destroyed, whatever has happened to it
before; so it is torn down once in the runs that call `closeCallback` once (`ClosesOnce`). The invariant
counts: each close is a removal, queued or done, and each removal a `connectDestroyed`, queued, about to
run or done.
-/

namespace Hulatang.TCPConnection

/-- The owner removes the connection at most once, never fails to, and it is destroyed at most once. -/
structure TornDownOnce (c : TCPConnection) : Prop where
  notRemoved : c.notRemoved = 0
  removed : c.removed ≤ 1
  destroyed : c.destroyed ≤ 1

/-- `closeCallback` runs when it has not run before. -/
def ClosesOnce (c : TCPConnection) : Op → Prop
  | .run _ => c.frames.head? = some .close → c.closed = 0
  | _ => True

instance (c : TCPConnection) : DecidablePred c.ClosesOnce
  | .run _ => inferInstanceAs (Decidable (c.frames.head? = some .close → c.closed = 0))
  | .startup | .task _ | .event _ | .userSend | .userClose | .otherSend | .otherClose | .disconnect
  | .removal => inferInstanceAs (Decidable True)

/-- How often `connectDestroyed` is queued or about to run. -/
def pendingDestroys (c : TCPConnection) : ℕ :=
  c.startup.count .connectDestroyed + c.queue.count .connectDestroyed +
    c.frames.count .connectDestroyed

/-- Closes, removals and destructions in their numbers. -/
structure TearDown (c : TCPConnection) : Prop where
  closed : c.closed ≤ 1
  removals : c.removals + c.removed = c.closed
  owned : c.owned = true ↔ c.removed = 0
  notRemoved : c.notRemoved = 0
  destroys : c.pendingDestroys + c.destroyed = c.removed

theorem tearDown_initial (owner : Owner) : TearDown (initial owner) := by
  cases owner <;> exact ⟨by decide, by decide, by decide, by decide, by decide⟩

theorem TearDown.tornDownOnce {c : TCPConnection} (h : TearDown c) : TornDownOnce c := by
  have hclosed := h.closed
  have hremovals := h.removals
  have hdestroys := h.destroys
  exact ⟨h.notRemoved, by omega, by omega⟩

/-- Nothing is closed, removed or destroyed, nor is it more or less often to be destroyed. -/
structure Quiet (c c' : TCPConnection) : Prop where
  closed : c'.closed = c.closed
  removals : c'.removals = c.removals
  removed : c'.removed = c.removed
  owned : c'.owned = c.owned
  notRemoved : c'.notRemoved = c.notRemoved
  destroyed : c'.destroyed = c.destroyed
  pending : c'.pendingDestroys = c.pendingDestroys

theorem TearDown.of_quiet {c c' : TCPConnection} (h : TearDown c) (hq : Quiet c c') : TearDown c' := by
  constructor
  · rw [hq.closed]
    exact h.closed
  · rw [hq.removals, hq.removed, hq.closed]
    exact h.removals
  · rw [hq.owned, hq.removed]
    exact h.owned
  · rw [hq.notRemoved]
    exact h.notRemoved
  · rw [hq.pending, hq.destroyed, hq.removed]
    exact h.destroys

/-- What the loop thread does is quiet, unless it closes or destroys. -/
theorem quiet_runFrame (c : TCPConnection) (io : IoResult) {frame : Frame} (hclose : frame ≠ .close)
    (hdestroy : frame ≠ .connectDestroyed) : Quiet c (c.runFrame io frame) := by
  cases frame with
  | close => exact absurd rfl hclose
  | connectDestroyed => exact absurd rfl hdestroy
  | add =>
    simp only [runFrame, add]
    split_ifs <;> exact ⟨rfl, rfl, rfl, rfl, rfl, rfl, rfl⟩
  | connectEstablished =>
    simp only [runFrame, connectEstablished, enableReading, update]
    split_ifs <;> exact ⟨rfl, rfl, rfl, rfl, rfl, rfl, rfl⟩
  | cancel =>
    simp only [runFrame, cancel, ctlDel]
    split_ifs <;> exact ⟨rfl, rfl, rfl, rfl, rfl, rfl, rfl⟩
  | send =>
    simp only [runFrame, send, enableWriting, update]
    split_ifs <;> exact ⟨rfl, rfl, rfl, rfl, rfl, rfl, rfl⟩
  | firstCall call =>
    rcases call with _ | _ | _ | _ <;> cases io <;> exact ⟨rfl, rfl, rfl, rfl, rfl, rfl, rfl⟩
  | lastCall writes =>
    cases writes <;> cases io <;> exact ⟨rfl, rfl, rfl, rfl, rfl, rfl, rfl⟩
  | user | crash => exact ⟨rfl, rfl, rfl, rfl, rfl, rfl, rfl⟩

/-- What the loop thread takes off its stack, unless it is a `connectDestroyed`. -/
theorem quiet_pop {c : TCPConnection} {frame : Frame} {frames : List Frame}
    (hf : c.frames = frame :: frames) (hdestroy : frame ≠ .connectDestroyed) :
    Quiet c { c with frames := frames } := by
  refine ⟨rfl, rfl, rfl, rfl, rfl, rfl, ?_⟩
  simp [pendingDestroys, hf, hdestroy]

/-- A task that the loop takes from its queue. -/
theorem quiet_task {c : TCPConnection} {frame : Frame} (hq : frame ∈ c.queue) :
    Quiet c ({ c with queue := c.queue.erase frame }.push frame) := by
  refine ⟨rfl, rfl, rfl, rfl, rfl, rfl, ?_⟩
  have hpos := List.count_pos_iff.mpr hq
  simp only [pendingDestroys, push, List.count_cons, List.count_erase]
  -- A `connectDestroyed` moves from the queue to the stack.
  by_cases he : frame = .connectDestroyed
  · subst he
    simp only [beq_self_eq_true, if_true]
    omega
  · simp [he]

/-- The first close removes the connection, or queues its removal. -/
theorem TearDown.close {c : TCPConnection} (h : TearDown c) (hfirst : c.closed = 0) :
    TearDown c.close := by
  have hremovals := h.removals
  have hdestroys := h.destroys
  have hnot := h.notRemoved
  have hremoved : c.removed = 0 := by omega
  have howned : c.owned = true := h.owned.mpr hremoved
  unfold TCPConnection.close
  -- A worker's removal is queued on the base loop; the others remove at once.
  cases howner : c.owner <;> simp only [remove, howned, queueTask, push] <;>
    refine ⟨?_, ?_, ?_, ?_, ?_⟩ <;> simp_all [pendingDestroys]

/-- A queued removal. -/
theorem TearDown.removal {c : TCPConnection} (h : TearDown c) (hq : 0 < c.removals) :
    TearDown ({ c with removals := c.removals - 1 }.remove.queueTask .connectDestroyed) := by
  have hclosed := h.closed
  have hremovals := h.removals
  have hdestroys := h.destroys
  have hnot := h.notRemoved
  have hremoved : c.removed = 0 := by omega
  have howned : c.owned = true := h.owned.mpr hremoved
  simp only [remove, howned, queueTask]
  refine ⟨?_, ?_, ?_, ?_, ?_⟩ <;> simp_all [pendingDestroys]
  omega

/-- `connectDestroyed` runs. -/
theorem TearDown.connectDestroyed {c : TCPConnection} {frames : List Frame} (h : TearDown c)
    (hf : c.frames = .connectDestroyed :: frames) :
    TearDown { c with frames := frames }.connectDestroyed := by
  have hclosed := h.closed
  have hremovals := h.removals
  have hdestroys := h.destroys
  have hnot := h.notRemoved
  have howned := h.owned
  simp only [pendingDestroys, hf, List.count_cons_self] at hdestroys
  unfold TCPConnection.connectDestroyed disableAll update
  dsimp only
  split_ifs <;> refine ⟨hclosed, hremovals, howned, hnot, ?_⟩ <;>
    simp [pendingDestroys, push] <;> omega

/-- A step that closes for the first time, or not at all, keeps the numbers. -/
theorem TearDown.step {c c' : TCPConnection} {op : Op} (h : TearDown c) (hg : c.ClosesOnce op)
    (hs : Stepped c op c') : TearDown c' := by
  cases hs with
  | run io frame frames hf =>
    by_cases hdestroy : frame = .connectDestroyed
    · subst hdestroy
      exact h.connectDestroyed hf
    · have hpop := h.of_quiet (quiet_pop hf hdestroy)
      by_cases hclose : frame = .close
      · subst hclose
        exact hpop.close (hg (by rw [hf]; rfl))
      · exact hpop.of_quiet (quiet_runFrame _ io hclose hdestroy)
  | startup frame startup hf hstart =>
    refine h.of_quiet ⟨rfl, rfl, rfl, rfl, rfl, rfl, ?_⟩
    simp only [pendingDestroys, push, hstart, List.count_cons]
    omega
  | task frame hf hq => exact h.of_quiet (quiet_task hq)
  | event | userSend | userClose | otherSend | otherClose | disconnect =>
    exact h.of_quiet ⟨rfl, rfl, rfl, rfl, rfl, rfl, rfl⟩
  | removal hq => exact h.removal hq

/-- A run that calls `closeCallback` at most once tears the connection down at most once. -/
theorem tornDownOnce_of_closesOnce (owner : Owner) (ops : List Op)
    (hops : Machine.Meets step ClosesOnce (initial owner) ops) :
    Machine.Always step TornDownOnce (initial owner) ops :=
  Machine.always_of_meets (fun _ h => h.tornDownOnce) (fun _ _ _ h hg hs => h.step hg (stepped_of_step hs))
    (tearDown_initial owner) hops

/-- The peer closes a connection of a worker loop, and a poll reports it. -/
theorem tornDownOnce_peer_closes :
    Machine.Always step TornDownOnce (initial .serverWorker)
      [.startup, .run .data, .startup, .run .data, .run .data, .event Revent.POLLIN, .run .eof,
        .run .data, .run .data, .removal, .task .connectDestroyed, .run .data, .run .data, .run .data] :=
  tornDownOnce_of_closesOnce .serverWorker _ (by decide)

/-- The end of file is reported again by the next poll, before the base loop has removed the connection:
the second removal does not find it. -/
theorem removed_twice_on_worker :
    ¬ ∀ (owner : Owner) (ops : List Op), Machine.Always step TornDownOnce (initial owner) ops := by
  intro h
  have hrun := h .serverWorker
    [.startup, .run .data, .startup, .run .data, .run .data, .event Revent.POLLIN, .run .eof,
      .run .data, .run .data, .event Revent.POLLIN, .run .eof, .run .data, .run .data, .removal, .removal]
  exact absurd (hrun.of_run rfl).notRemoved (by decide)

end Hulatang.TCPConnection
