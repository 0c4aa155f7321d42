import Hulatang.Io.CycleEventManager
import Hulatang.Io.TimerEventManager

/-!
# `EventLoop` on Linux

One iteration of the loop thread is cut at every read or write of a variable that other threads
write, and at the points where it runs user code: handlers of descriptors and of timers, idle
handlers and queued callbacks, all of which may create timers, queue callbacks and stop the loop. Any
number of producers run `queueInLoop` and `stop` beside it, one step at a time. The timers and the
task queue are the machines of `TimerEventManager` and `CycleEventManager`, whose steps are steps of
the loop.

`epoll_wait` may return at any time, because its time is up or a signal arrives. The event loop here is
past the stores of `run` that precede its `while`.
-/

namespace Hulatang

/-- `EnumEventLoopStatus`. -/
inductive EnumEventLoopStatus
  | Null
  | Initializing
  | Initialized
  | Starting
  | Running
  | Stopping
  | Stopped
  deriving DecidableEq

/-- What an `EPollFdEventManager` has that a wakeup is about. -/
structure FdEventManager where
  /-- The sum of the values written to the eventfd since the last read. -/
  eventFd : ℕ
  processing : Bool
  /-- Whether one of the other descriptors is readable. -/
  ready : Bool
  deriving DecidableEq

namespace FdEventManager

/-- Whether `epoll_wait` finds a readable descriptor. -/
def readable (fd : FdEventManager) : Bool := 0 < fd.eventFd || fd.ready

/-- `eventfd_write`. -/
def eventfdWrite (fd : FdEventManager) (value : ℕ) : FdEventManager :=
  { fd with eventFd := fd.eventFd + value }

/-- `LinuxFdEventManager::wakeup`. -/
def linuxWakeup (fd : FdEventManager) : FdEventManager :=
  if fd.processing then fd.eventfdWrite 0 else fd

/-- `EPollFdEventManager::wakeup`, which overrides it. -/
def wakeup (fd : FdEventManager) : FdEventManager := fd

/-- The override loses nothing: the function it overrides leaves the descriptors as they are, too. -/
theorem linuxWakeup_eq_wakeup (fd : FdEventManager) : fd.linuxWakeup = fd.wakeup := by
  unfold linuxWakeup
  split_ifs <;> rfl

/-- The handler of the eventfd's channel: `eventfd_read` when `POLLIN` is set. -/
def readEvent (fd : FdEventManager) : FdEventManager := { fd with eventFd := 0 }

end FdEventManager

/-- `MaximumBlockingTime`, in microseconds. -/
def MaximumBlockingTime : ℤ := 10000000

/-- The milliseconds that `EPollFdEventManager::process` passes to `epoll_wait`. -/
def timeoutMs (blockTime : ℤ) : ℤ := blockTime.tdiv 1000

/-- Where the loop thread is; `blocktime` and `next_timeout` are its locals. -/
inductive LoopPc
  /-- At the head of the `while` of `run`. -/
  | test
  /-- At the `updateTime` of `runOnce`. -/
  | updateTime
  /-- At the first `isIdle` of `calculationBlocktime`. -/
  | isIdle
  /-- At its first `nextTriggerTime`. -/
  | nextTriggerTime
  /-- In its `timerEventManager.process`. -/
  | blocktimeTimers
  /-- At its `updateTime`. -/
  | updateTimeAgain
  /-- At its `cycleEventManager.isIdle`. -/
  | cycleIsIdle (next_timeout : ℤ)
  /-- At its second `isIdle`. -/
  | isIdleAgain (next_timeout : ℤ)
  | startProcess (blocktime : ℤ)
  /-- In `epoll_wait`. -/
  | epollWait (blocktime : ℤ)
  /-- Past `epoll_wait`, which has reported the eventfd or not. -/
  | endProcess (blocktime : ℤ) (woken : Bool)
  /-- In `processEvent`. -/
  | processEvent (blocktime : ℤ) (woken : Bool)
  /-- At `if (blocktime > 500us)`. -/
  | updateTimeAfter (blocktime : ℤ)
  /-- In `processTimerAndTimeout`. -/
  | processTimer
  /-- At the `isIdle` of `runOnce`. -/
  | choose
  | processIdle
  | processCycle
  /-- Past the `while` of `run`. -/
  | exited
  deriving DecidableEq

/-- Where a producer is in `queueInLoop` or `stop`. -/
inductive ProducerPc
  | out
  /-- In `createEvent`. -/
  | createEvent
  /-- At the `wakeup` of the `queueInLoop` of `f`. -/
  | wakeup (f : Callback)
  /-- At the `wakeup` of `stop`. -/
  | stopWakeup
  deriving DecidableEq

/-- The event loop and the producers. -/
structure EventLoop where
  timerEventManager : TimerEventManager
  cycleEventManager : CycleEventManager
  fdEventManager : FdEventManager
  status : EnumEventLoopStatus
  pc : LoopPc
  producer : ℕ → ProducerPc
  /-- The callbacks of the producers' `queueInLoop` calls that have returned. -/
  returned : List Callback
  /-- Whether a producer's `stop` has stored `Stopping`. -/
  stopStored : Bool
  /-- Whether a producer's `stop` has returned. -/
  stopReturned : Bool

namespace EventLoop

/-- A running loop before its first iteration. -/
def initial (currentTime : ℤ) : EventLoop :=
  ⟨.initial currentTime, .initial, ⟨0, false, false⟩, .Running, .test, fun _ => .out, [], false, false⟩

/-- `EventLoop::isIdle`. -/
def isIdle (l : EventLoop) : Bool := l.timerEventManager.isIdle && l.cycleEventManager.isIdle

/-- Whether the loop thread is in user code. -/
def inHandler (l : EventLoop) : Bool :=
  match l.pc, l.timerEventManager.pc, l.cycleEventManager.pc with
  | .processEvent _ _, _, _ => true
  | .processIdle, _, _ => true
  | .blocktimeTimers, .handling _ _ _, _ => true
  | .processTimer, .handling _ _ _, _ => true
  | .processCycle, _, .running _ _ => true
  | _, _, _ => false

/-- `EventLoop::updateTime`. -/
def updateTime (l : EventLoop) (now : ℤ) : EventLoop :=
  { l with timerEventManager := { l.timerEventManager with loopTime := now } }

/-- The last lines of `calculationBlocktime`. -/
def clampBlocktime (next_timeout : ℤ) : ℤ :=
  min MaximumBlockingTime (if next_timeout < 1000 then 1000 else next_timeout)

/-- The loop thread goes on from its place; `now` is what the clock shows. -/
def advance (l : EventLoop) (now : ℤ) : Option EventLoop :=
  match l.pc with
  | .test => some { l with pc := if l.status = .Running then .updateTime else .exited }
  | .updateTime => some { l.updateTime now with pc := .isIdle }
  | .isIdle =>
    some { l with pc := if l.isIdle then .startProcess MaximumBlockingTime else .nextTriggerTime }
  | .nextTriggerTime =>
    let next_timeout := l.timerEventManager.nextTriggerTime
    if next_timeout < 0 then
      some { l with timerEventManager := l.timerEventManager.enter, pc := .blocktimeTimers }
    else some { l with pc := .cycleIsIdle next_timeout }
  | .blocktimeTimers =>
    if l.timerEventManager.pc = .outside then some { l with pc := .updateTimeAgain } else none
  | .updateTimeAgain =>
    some { l.updateTime now with
      pc := .cycleIsIdle (l.updateTime now).timerEventManager.nextTriggerTime }
  | .cycleIsIdle next_timeout =>
    some { l with
      pc := if l.cycleEventManager.isIdle then .isIdleAgain next_timeout else .startProcess 0 }
  | .isIdleAgain next_timeout =>
    some { l with
      pc := .startProcess (if l.isIdle then MaximumBlockingTime else clampBlocktime next_timeout) }
  | .startProcess blocktime =>
    some { l with
      fdEventManager := { l.fdEventManager with processing := true }
      pc := .epollWait blocktime }
  | .epollWait blocktime =>
    some { l with pc := .endProcess blocktime (0 < l.fdEventManager.eventFd) }
  | .endProcess blocktime woken =>
    some { l with
      fdEventManager := { l.fdEventManager with processing := false }
      pc := .processEvent blocktime woken }
  | .processEvent blocktime woken =>
    some { l with
      fdEventManager := if woken then l.fdEventManager.readEvent else l.fdEventManager
      pc := .updateTimeAfter blocktime }
  | .updateTimeAfter blocktime =>
    let l := if 500 < blocktime then l.updateTime now else l
    some { l with timerEventManager := l.timerEventManager.enter, pc := .processTimer }
  | .processTimer =>
    if l.timerEventManager.pc = .outside then some { l with pc := .choose } else none
  | .choose =>
    if l.isIdle then some { l with pc := .processIdle }
    else (l.cycleEventManager.step .process).map fun m =>
      { l with cycleEventManager := m, pc := .processCycle }
  | .processIdle => some { l with pc := .test }
  | .processCycle =>
    if l.cycleEventManager.pc = .idle then some { l with pc := .test } else none
  | .exited => none

/-- The steps of the loop thread, of the producers and of the descriptors. -/
inductive Op
  /-- The loop thread goes on. -/
  | advance (now : ℤ)
  /-- A step of the timer pass that the loop thread is in, or of user code on the timers. -/
  | timer (op : TimerEventManager.Op)
  /-- A step of the pass over the callbacks, or of a `queueInLoop` up to its `wakeup`. -/
  | cycle (op : CycleEventManager.Op)
  /-- A thread stores `Stopping`. -/
  | stop (t : Thread)
  /-- A producer's `wakeup`, after which its call returns. -/
  | wakeup (k : ℕ)
  /-- One of the other descriptors becomes readable, or is read. -/
  | ready (b : Bool)
  deriving DecidableEq

/-- The steps of a timer pass go on whenever one is running; user code creates and cancels timers. -/
def timerStep (l : EventLoop) (op : TimerEventManager.Op) : Option EventLoop :=
  let enabled : Bool :=
    match op with
    | .visit => true
    | .handlerReturned => true
    | .create _ _ => l.inHandler
    | .cancel _ => l.inHandler
    | .updateTime _ => false
    | .process => false
  if enabled then
    (l.timerEventManager.step op).map fun m => { l with timerEventManager := m }
  else none

/-- The steps of a pass over the callbacks go on whenever one is running; user code and the producers
call `queueInLoop`. -/
def cycleStep (l : EventLoop) (op : CycleEventManager.Op) : Option EventLoop :=
  let next := (l.cycleEventManager.step op).map fun m => { l with cycleEventManager := m }
  match op with
  | .process => none
  | .createEvent .loop => if l.inHandler then next else none
  | .createEvent (.producer k) =>
    if l.producer k = .out then
      next.map fun l' => { l' with producer := Function.update l.producer k .createEvent }
    else none
  | .incSize (.producer k) =>
    next.map fun l' =>
      { l' with
        producer := Function.update l.producer k
          (.wakeup (l.cycleEventManager.callback (.producer k))) }
  | _ => next

/-- One step. The loop thread does nothing else while it is in a `createEvent`. -/
def step (l : EventLoop) : Op → Option EventLoop
  | .advance now => if l.cycleEventManager.create .loop = .idle then l.advance now else none
  | .timer op => if l.cycleEventManager.create .loop = .idle then l.timerStep op else none
  | .cycle op => l.cycleStep op
  | .stop .loop =>
    if l.inHandler ∧ l.cycleEventManager.create .loop = .idle then some { l with status := .Stopping }
    else none
  | .stop (.producer k) =>
    if l.producer k = .out then
      some { l with
        status := .Stopping
        producer := Function.update l.producer k .stopWakeup
        stopStored := true }
    else none
  | .wakeup k =>
    match l.producer k with
    | .wakeup f =>
      some { l with
        fdEventManager := l.fdEventManager.wakeup
        producer := Function.update l.producer k .out
        returned := f :: l.returned }
    | .stopWakeup =>
      some { l with
        fdEventManager := l.fdEventManager.wakeup
        producer := Function.update l.producer k .out
        stopReturned := true }
    | _ => none
  | .ready b => some { l with fdEventManager := { l.fdEventManager with ready := b } }

end EventLoop

end Hulatang
