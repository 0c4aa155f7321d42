import Hulatang.Io.EventLoop

/-!
# `EventLoopThread`

The owner's thread runs `startLoop` and then one `stop`, beside the `threadFunc` that `startLoop`
starts. Each store to one of the two status variables, each access to `loop_` and each test is one
step. The loop lives on the stack of `threadFunc`; tasks on it, and the thread's init callback, may
stop it themselves.

`stop` waits for the thread's status to be `Running`, dereferences `loop_` and stores `Stopping` in the
loop. Nothing makes `threadFunc` wait for it: a loop that stopped itself clears `loop_` at once, and
`EventLoop::run` stores `Running` over a `Stopping` that came before it.
-/

namespace Hulatang

/-- Where the owner's thread is. -/
inductive OwnerPc
  | idle
  /-- In `startLoop`, waiting for `loop_`. -/
  | waiting
  | started
  /-- In `stop`, waiting for `Running`. -/
  | spin
  /-- At `status.store(Stopping)`. -/
  | storeStopping
  /-- At the dereference of `loop_`. -/
  | deref
  /-- In `EventLoop::stop`, at its `status.store(Stopping)`. -/
  | loopStop
  /-- At its `wakeup`. -/
  | wakeup
  | join
  | done
  deriving DecidableEq

/-- Where the loop's thread is in `threadFunc` and in `EventLoop::run`. -/
inductive ThreadPc
  | absent
  /-- At the constructor of the `EventLoop`. -/
  | construct
  | storeStarting
  /-- In `callback_`. -/
  | callback
  /-- At `loop_ = &loop`. -/
  | publish
  | storeRunning
  /-- In `run`, at its `status.store(Starting)`. -/
  | runStarting
  /-- At its `status.store(Running)`. -/
  | runRunning
  /-- At the test of its `while`. -/
  | test
  /-- In `runOnce`. -/
  | runOnce
  /-- At its `status.store(Stopped)`. -/
  | runStopped
  /-- At `loop_ = nullptr`. -/
  | clear
  | storeStopped
  | exited
  deriving DecidableEq

/-- An `EventLoopThread`, its loop, and where the two threads are. -/
structure EventLoopThread where
  owner : OwnerPc
  pc : ThreadPc
  /-- `EventLoopThread::status`. -/
  status : EnumEventLoopStatus
  /-- Whether `loop_` points to the loop; otherwise it is `nullptr`. -/
  loop_ : Bool
  /-- `EventLoop::status`. -/
  loopStatus : EnumEventLoopStatus
  /-- Whether an `EventLoop::stop` has stored `Stopping`. -/
  stopStored : Bool
  deriving DecidableEq

namespace EventLoopThread

/-- A constructed `EventLoopThread`. -/
def initial : EventLoopThread := ⟨.idle, .absent, .Stopped, false, .Null, false⟩

/-- The store of `EventLoop::stop`. -/
def storeLoopStopping (t : EventLoopThread) : EventLoopThread :=
  { t with loopStatus := .Stopping, stopStored := true }

/-- The owner runs `startLoop`, then `stop`. -/
def ownerStep (t : EventLoopThread) : Option EventLoopThread :=
  match t.owner with
  | .idle => some { t with owner := .waiting, pc := .construct }
  | .waiting => if t.loop_ then some { t with owner := .started } else none
  | .started => some { t with owner := .spin }
  | .spin => some (if t.status = .Running then { t with owner := .storeStopping } else t)
  | .storeStopping => some { t with owner := .deref, status := .Stopping }
  -- A null pointer is dereferenced: the program has no next step.
  | .deref => if t.loop_ then some { t with owner := .loopStop } else none
  | .loopStop => some { t.storeLoopStopping with owner := .wakeup }
  | .wakeup => some { t with owner := .join }
  | .join => if t.pc = .exited then some { t with owner := .done } else none
  | .done => none

/-- The loop's thread runs `threadFunc`. -/
def threadStep (t : EventLoopThread) : Option EventLoopThread :=
  match t.pc with
  | .absent => none
  | .construct => some { t with pc := .storeStarting, loopStatus := .Initialized }
  | .storeStarting => some { t with pc := .callback, status := .Starting }
  | .callback => some { t with pc := .publish }
  | .publish => some { t with pc := .storeRunning, loop_ := true }
  | .storeRunning => some { t with pc := .runStarting, status := .Running }
  | .runStarting => some { t with pc := .runRunning, loopStatus := .Starting }
  | .runRunning => some { t with pc := .test, loopStatus := .Running }
  | .test => some { t with pc := if t.loopStatus = .Running then .runOnce else .runStopped }
  | .runOnce => some { t with pc := .test }
  | .runStopped => some { t with pc := .clear, loopStatus := .Stopped }
  | .clear => some { t with pc := .storeStopped, loop_ := false }
  | .storeStopped => some { t with pc := .exited, status := .Stopped }
  | .exited => none

/-- The steps of the two threads; `taskStop` is a call of `EventLoop::stop` by a task on the loop or by
the init callback. -/
inductive Op
  | owner
  | thread
  | taskStop
  deriving DecidableEq

/-- One step of one thread. -/
def step (t : EventLoopThread) : Op → Option EventLoopThread
  | .owner => t.ownerStep
  | .thread => t.threadStep
  | .taskStop => if t.pc = .callback ∨ t.pc = .runOnce then some t.storeLoopStopping else none

end EventLoopThread

end Hulatang
