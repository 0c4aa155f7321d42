import Mathlib.Algebra.Group.Nat.Defs
import Mathlib.Algebra.Ring.Int.Defs
import Mathlib.Logic.Function.Basic
import Hulatang.Lib.Machine
import Hulatang.Lib.ProducerQueue

/-!
# `CycleEventManager`

The task queue of a loop: any thread appends a callback with `createEvent`, and the loop thread runs
with `process` as many as `size` held when it started. The counter and the queue are updated in
separate steps on both sides, and every read or write of a shared variable is one step here. The
threads are numbered; a callback is named by the thread that creates it and its number there.

The concurrent queue is linearizable, keeps the order of each producer, and may fail an operation
spuriously; `size` is an `std::atomic_int32_t`, which wraps.
-/

namespace Hulatang

/-- The thread of the loop, or one of the other threads. -/
inductive Thread
  | loop
  | producer (k : ℕ)
  deriving DecidableEq

/-- A callback: the thread that creates it, and how many that thread has created before. -/
abbrev Callback := Thread × ℕ

/-- Where a thread is in `createEvent`. -/
inductive CreateEventPc
  | idle
  /-- At attempt `i`: a `try_enqueue` while `i < 50`, then an `enqueue`. -/
  | trying (i : ℕ)
  /-- Between the queue and `++size`. -/
  | enqueued
  deriving DecidableEq

/-- Where the loop thread is in `process`, with its `eventCount` and `i`. -/
inductive CyclePc
  | idle
  | test (eventCount : ℤ) (i : ℕ)
  /-- At `try_dequeue`. -/
  | spin (eventCount : ℤ) (i : ℕ)
  /-- In `event.handle()`. -/
  | running (eventCount : ℤ) (i : ℕ)
  /-- Before `--size`. -/
  | handled (eventCount : ℤ) (i : ℕ)
  deriving DecidableEq

/-- How many dequeues a pass has still to do. -/
def CyclePc.remaining : CyclePc → ℤ
  | .idle => 0
  | .test eventCount i => eventCount - i
  | .spin eventCount i => eventCount - i
  | .running eventCount i => eventCount - i - 1
  | .handled eventCount i => eventCount - i - 1

/-- How many callbacks have been dequeued and not yet subtracted from `size`. -/
def CyclePc.inFlight : CyclePc → ℕ
  | .running _ _ => 1
  | .handled _ _ => 1
  | _ => 0

/-- The arithmetic of `std::atomic_int32_t`. -/
def int32 (x : ℤ) : ℤ := x.bmod (2^32)

/-- The queue and its counter, where each thread is, and what a run has done so far. -/
structure CycleEventManager where
  /-- The queue, in the order of the enqueues. -/
  queue : List Callback
  size : ℤ
  /-- Where each thread is in `createEvent`. -/
  create : Thread → CreateEventPc
  /-- Where the loop thread is in `process`. -/
  pc : CyclePc
  /-- How many calls of `createEvent` each thread has finished. -/
  calls : Thread → ℕ
  /-- What has been enqueued, in order. -/
  enqueued : List Callback
  /-- What has been enqueued and counted by `++size`. -/
  counted : List Callback
  /-- What has been dequeued and handed to `handle()`, in order. -/
  ran : List Callback
  /-- How many callbacks the current pass has run. -/
  passRan : ℕ
  /-- The finished passes: what `size` held when one started, and how many callbacks it ran. -/
  passes : List (ℤ × ℕ)

namespace CycleEventManager

/-- A manager before its first callback. -/
def initial : CycleEventManager :=
  ⟨[], 0, fun _ => .idle, .idle, fun _ => 0, [], [], [], 0, []⟩

/-- `CycleEventManager::isIdle`. -/
def isIdle (m : CycleEventManager) : Bool := m.size = 0

/-- The callback that a thread in `createEvent` is creating. -/
def callback (m : CycleEventManager) (t : Thread) : Callback := (t, m.calls t)

/-- Whether a thread is in user code, where it can call `createEvent`. -/
def mayCreate (m : CycleEventManager) : Thread → Bool
  | .producer _ => true
  | .loop =>
    match m.pc with
    | .idle => true
    | .running _ _ => true
    | _ => false

/-- A thread goes on in `createEvent`. -/
def setCreate (m : CycleEventManager) (t : Thread) (pc : CreateEventPc) : CycleEventManager :=
  { m with create := Function.update m.create t pc }

/-- A successful `try_enqueue` or `enqueue`. -/
def push (m : CycleEventManager) (t : Thread) : CycleEventManager :=
  { m.setCreate t .enqueued with
    queue := m.queue ++ [m.callback t]
    enqueued := m.enqueued ++ [m.callback t] }

/-- `++size`, the last step of `createEvent`. -/
def count (m : CycleEventManager) (t : Thread) : CycleEventManager :=
  { m.setCreate t .idle with
    size := int32 (m.size + 1)
    calls := Function.update m.calls t (m.calls t + 1)
    counted := m.counted ++ [m.callback t] }

/-- The steps of the threads. -/
inductive Op
  /-- The thread `t` calls `createEvent`. -/
  | createEvent (t : Thread)
  /-- One attempt of the thread to enqueue, and whether it succeeds. -/
  | tryEnqueue (t : Thread) (ok : Bool)
  | incSize (t : Thread)
  /-- The loop thread calls `process`, which reads `size`. -/
  | process
  /-- The head of the loop of `process`. -/
  | test
  /-- One `try_dequeue`: it fails, or takes the entry at the place `k`. -/
  | tryDequeue (k : Option ℕ)
  | handlerReturned
  | decSize
  deriving DecidableEq

/-- One step of one thread. -/
def step (m : CycleEventManager) : Op → Option CycleEventManager
  | .createEvent t =>
    if m.create t = .idle ∧ m.mayCreate t then some (m.setCreate t (.trying 0)) else none
  | .tryEnqueue t ok =>
    match m.create t with
    | .trying i =>
      if ok then some (m.push t)
      -- After fifty failures of `try_enqueue` the thread stays in the loop of `enqueue`.
      else some (m.setCreate t (.trying (if i < 50 then i + 1 else i)))
    | _ => none
  | .incSize t => if m.create t = .enqueued then some (m.count t) else none
  | .process =>
    if m.pc = .idle ∧ m.create .loop = .idle then some { m with pc := .test m.size 0, passRan := 0 }
    else none
  | .test =>
    match m.pc with
    | .test eventCount i =>
      if (i : ℤ) < eventCount then some { m with pc := .spin eventCount i }
      else some { m with pc := .idle, passes := (eventCount, m.passRan) :: m.passes }
    | _ => none
  | .tryDequeue k =>
    match m.pc, k with
    | .spin _ _, none => some m
    | .spin eventCount i, some k =>
      (ProducerQueue.take? Prod.fst k m.queue).map fun (f, queue) =>
        { m with
          queue := queue
          pc := .running eventCount i
          ran := m.ran ++ [f]
          passRan := m.passRan + 1 }
    | _, _ => none
  | .handlerReturned =>
    match m.pc with
    | .running eventCount i =>
      if m.create .loop = .idle then some { m with pc := .handled eventCount i } else none
    | _ => none
  | .decSize =>
    match m.pc with
    | .handled eventCount i =>
      some { m with size := int32 (m.size - 1), pc := .test eventCount (i + 1) }
    | _ => none

end CycleEventManager

end Hulatang
