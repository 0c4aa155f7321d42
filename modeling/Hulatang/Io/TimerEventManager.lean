import Mathlib.Algebra.Group.Nat.Defs
import Mathlib.Data.Int.Order.Basic
import Hulatang.Lib.KeyedSet
import Hulatang.Lib.Machine

/-!
# `TimerEventManager` and its watchers

The loop keeps its pending timers in `timerSet`, a `std::set` of shared pointers ordered by
`LessTimerEventWatcher`, which compares the watchers' current `getTimeout()`. A watcher is named here
by a number, as the source names it by a pointer, and `watcher` holds the fields behind the pointer,
so a timeout can change while the watcher stays where it is in `timerSet`.

`process` calls handlers, and a handler may create further timers, so the pass is cut at the points
where user code runs: `process` enters the loop, `visit` is one turn of its head, and
`handlerReturned` is what `handle()` does after `handler()`. Watchers reach the set through
`TimerEventWatcher::create` and `RepeatTimerEventWatcher::create`, on the loop thread at once and from
another thread through a queued task; either way the step is `create`.

`std::set` promises nothing on a sequence that its comparator does not order. `emplace` takes the
first place there.
-/

namespace Hulatang

/-- `RepeatTimerEventWatcher::Infinite`, which is `UINT32_MAX`. -/
def Infinite : ℕ := 2^32 - 1

/-- The class of a watcher, with the fields that `RepeatTimerEventWatcher` adds. -/
inductive WatcherClass
  | oneShot
  | repeating (interval : ℤ) (repeats : ℕ)
  deriving DecidableEq

/-- The fields of a `TimerEventWatcher` that the manager reads; times are in microseconds. -/
structure TimerEventWatcher where
  /-- When the watcher is due. -/
  timeout : ℤ
  /-- Which `handle()` it has. -/
  cls : WatcherClass
  deriving DecidableEq

/-- Where the loop thread is in `TimerEventManager::process`. -/
inductive ProcessPc
  | outside
  /-- At the head of the loop, with the `currentTime` of the pass and the iterator `it`. -/
  | head (currentTime : ℤ) (it : Option ℕ)
  /-- In `timer->handle()`, called on the watcher that was just erased. -/
  | handling (currentTime : ℤ) (it : Option ℕ) (timer : ℕ)
  deriving DecidableEq

/-- The iterator `it` of a pass, `none` for `end` and outside a pass. -/
def ProcessPc.iterator : ProcessPc → Option ℕ
  | .outside => none
  | .head _ it => it
  | .handling _ it _ => it

/-- The `currentTime` of a running pass. -/
def ProcessPc.time : ProcessPc → Option ℤ
  | .outside => none
  | .head currentTime _ => some currentTime
  | .handling currentTime _ _ => some currentTime

/-- A timer manager with the loop time it reads, the watchers of the loop, and what a run has done so
far. -/
structure TimerEventManager where
  /-- `EventLoop::currentTime`. -/
  loopTime : ℤ
  /-- The watchers behind the pointers. -/
  watcher : ℕ → TimerEventWatcher
  /-- The set, in the order of its nodes. -/
  timerSet : List ℕ
  /-- Where `process` is. -/
  pc : ProcessPc
  /-- The watchers created so far. -/
  added : List ℕ
  /-- The watchers whose `handle()` has been called. -/
  handled : List ℕ
  /-- The watchers passed to `cancel`. -/
  cancelled : List ℕ
  /-- The watchers that were pending and due when the last pass started. -/
  due : List ℕ
  /-- The watchers whose `handle()` the last pass has called. -/
  passHandled : List ℕ

namespace TimerEventManager

/-- `watcher->getTimeout()`. -/
def getTimeout (m : TimerEventManager) (w : ℕ) : ℤ := (m.watcher w).timeout

/-- A manager before its first watcher. -/
def initial (loopTime : ℤ) : TimerEventManager :=
  ⟨loopTime, fun _ => ⟨0, .oneShot⟩, [], .outside, [], [], [], [], []⟩

/-- `TimerEventManager::isIdle`. -/
def isIdle (m : TimerEventManager) : Bool := m.timerSet.isEmpty

/-- `TimerEventManager::nextTriggerTime`: `1000ms` when no timer is pending. -/
def nextTriggerTime (m : TimerEventManager) : ℤ :=
  match m.timerSet.head? with
  | none => 1000000
  | some w => m.getTimeout w - m.loopTime

/-- `TimerEventManager::add`. -/
def add (m : TimerEventManager) (w : ℕ) : TimerEventManager :=
  { m with timerSet := KeyedSet.emplace m.getTimeout w m.timerSet }

/-- `TimerEventManager::cancel`, which erases by key. -/
def cancel (m : TimerEventManager) (w : ℕ) : TimerEventManager :=
  { m with
    timerSet := KeyedSet.eraseKey m.getTimeout w m.timerSet
    cancelled := w :: m.cancelled }

/-- Write the fields behind the pointer `w`. -/
def setTimer (m : TimerEventManager) (w : ℕ) (timer : TimerEventWatcher) : TimerEventManager :=
  { m with watcher := Function.update m.watcher w timer }

/-- `TimerEventWatcher::create` and `RepeatTimerEventWatcher::create`: a new watcher, added to the
set. -/
def create (m : TimerEventManager) (w : ℕ) (timer : TimerEventWatcher) : TimerEventManager :=
  { (m.setTimer w timer).add w with added := w :: m.added }

/-- `process` up to its loop. -/
def enter (m : TimerEventManager) : TimerEventManager :=
  { m with
    pc := .head m.loopTime m.timerSet.head?
    due := m.timerSet.filter fun w => m.getTimeout w ≤ m.loopTime
    passHandled := [] }

/-- One turn of the loop of `process`: the watcher at `it`, if it is due, is erased and its `handle()`
called; otherwise the pass is over. -/
def visit (m : TimerEventManager) (currentTime : ℤ) : Option ℕ → TimerEventManager
  | none => { m with pc := .outside }
  | some timer =>
    -- The comparison is with the time at the start of the pass, not with the loop's.
    if m.getTimeout timer ≤ currentTime then
      { m with
        timerSet := m.timerSet.erase timer
        -- `it = timerSet.erase(it)`, before `handle()` can add anything.
        pc := .handling currentTime (KeyedSet.after timer m.timerSet) timer
        handled := timer :: m.handled
        passHandled := timer :: m.passHandled }
    else { m with pc := .outside }

/-- What `handle()` does once `handler()` has returned: nothing for a one-shot watcher; a repeating one
adds itself again, and then moves its timeout. -/
def rearm (m : TimerEventManager) (timer : ℕ) : TimerEventManager :=
  match (m.watcher timer).cls with
  | .oneShot => m
  | .repeating interval repeats =>
    if repeats = 0 then m
    else
      let repeats' := if repeats = Infinite then repeats else repeats - 1
      -- `add` compares by the timeout that has just elapsed.
      (m.add timer).setTimer timer ⟨m.loopTime + interval, .repeating interval repeats'⟩

/-- The operations on the manager, and the points at which a pass stops for user code. -/
inductive Op
  /-- `EventLoop::updateTime` reads the clock. -/
  | updateTime (now : ℤ)
  | create (w : ℕ) (timer : TimerEventWatcher)
  | cancel (w : ℕ)
  | process
  | visit
  | handlerReturned
  deriving DecidableEq

/-- One step. Handlers run in the middle of a pass and create timers; `cancel` and `process` are
called from outside. -/
def step (m : TimerEventManager) : Op → Option TimerEventManager
  | .updateTime now => some { m with loopTime := now }
  | .create w timer =>
    match m.pc with
    -- Between two turns of the loop of `process` no user code runs.
    | .head _ _ => none
    | _ => if w ∈ m.added then none else some (m.create w timer)
  | .cancel w => if m.pc = .outside ∧ w ∈ m.added then some (m.cancel w) else none
  | .process => if m.pc = .outside then some m.enter else none
  | .visit =>
    match m.pc with
    | .head currentTime it => some (m.visit currentTime it)
    | _ => none
  | .handlerReturned =>
    match m.pc with
    | .handling currentTime it timer => some { m.rearm timer with pc := .head currentTime it }
    | _ => none

/-- `EventLoop::runAfter`. -/
def runAfter (m : TimerEventManager) (w : ℕ) (time : ℤ) : Op :=
  .create w ⟨time + m.loopTime, .oneShot⟩

/-- `EventLoop::runEvery`. -/
def runEvery (m : TimerEventManager) (w : ℕ) (interval : ℤ) (repeats : ℕ) : Op :=
  .create w ⟨m.loopTime + interval, .repeating interval repeats⟩

end TimerEventManager

end Hulatang
