import Hulatang.Io.EventLoop
import Hulatang.Io.IOCPFdEventManager

/-!
# How the loop asks for events

`runOnce` calls `process` of its manager with the time that `calculationBlocktime` returns, which is zero
where it has found callbacks in the queue. `EPollFdEventManager::process` asks the kernel once, whatever the
time is, and is told of as many channels as `events` has room for. `IOCPFdEventManager::process` asks it in a
loop, for one packet at a time, as long as the time is not up. That is tested before the first time as well,
so an iteration that has found callbacks asks nothing, and the packets stay where they are for as long as
there are callbacks in every iteration (`stays_of_tasks`). A packet may also end the loop, with others behind
it. `polls_iff` says exactly when all that was there at the beginning of a call is dispatched by it.

A call of `process` is a run of steps here, with those of the kernel, of other threads and of handlers between
them.
-/

namespace Hulatang

namespace EventLoop

/-- What `calculationBlocktime` returns, if it returns from where the loop thread is. -/
def calculationBlocktime (l : EventLoop) : Option ℤ :=
  match l.pc with
  | .isIdle => if l.isIdle then some MaximumBlockingTime else none
  | .cycleIsIdle _ => if l.cycleEventManager.isIdle then none else some 0
  | .isIdleAgain next_timeout => some (if l.isIdle then MaximumBlockingTime else clampBlocktime next_timeout)
  | _ => none

/-- Whether it returns because there are callbacks. -/
def findsTasks (l : EventLoop) : Bool :=
  match l.pc with
  | .cycleIsIdle _ => !l.cycleEventManager.isIdle
  | _ => false

variable {l : EventLoop} {b : ℤ}

/-- It is what `processIo` is called with. -/
theorem calculationBlocktime_eq_some_iff :
    l.calculationBlocktime = some b ↔ ∃ now l', l.advance now = some l' ∧ l'.pc = .startProcess b := by
  unfold calculationBlocktime advance
  constructor
  · intro h
    refine ⟨0, ?_⟩
    cases hpc : l.pc with
    | isIdle =>
      simp only [hpc] at h
      split_ifs at h with hidle
      cases h
      exact ⟨_, rfl, if_pos hidle⟩
    | cycleIsIdle next_timeout =>
      simp only [hpc] at h
      split_ifs at h with hidle
      cases h
      exact ⟨_, rfl, if_neg hidle⟩
    | isIdleAgain next_timeout =>
      simp only [hpc] at h
      exact ⟨_, rfl, congrArg LoopPc.startProcess (Option.some.inj h)⟩
    | _ => simp [hpc] at h
  · rintro ⟨now, l', hadvance, hpc'⟩
    cases hpc : l.pc with
    | isIdle =>
      simp only [hpc, Option.some.injEq] at hadvance
      subst hadvance
      dsimp only at hpc' ⊢
      split_ifs at hpc' ⊢
      cases hpc'
      rfl
    | cycleIsIdle next_timeout =>
      simp only [hpc, Option.some.injEq] at hadvance
      subst hadvance
      dsimp only at hpc' ⊢
      split_ifs at hpc' ⊢
      cases hpc'
      rfl
    | isIdleAgain next_timeout =>
      simp only [hpc, Option.some.injEq] at hadvance
      subst hadvance
      cases hpc'
      rfl
    | choose =>
      simp only [hpc] at hadvance
      split_ifs at hadvance
      · cases hadvance
        cases hpc'
      · obtain ⟨m, -, rfl⟩ := Option.map_eq_some_iff.mp hadvance
        cases hpc'
    | nextTriggerTime | blocktimeTimers | processTimer | processCycle =>
      simp only [hpc] at hadvance
      split_ifs at hadvance <;> cases hadvance <;> cases hpc'
    | test =>
      simp only [hpc, Option.some.injEq] at hadvance
      subst hadvance
      dsimp only at hpc'
      split_ifs at hpc'
    | exited => simp only [hpc, reduceCtorEq] at hadvance
    | updateTime | updateTimeAgain | startProcess | epollWait | endProcess | processEvent | updateTimeAfter
      | processIdle =>
      simp only [hpc, Option.some.injEq] at hadvance
      subst hadvance
      cases hpc'

/-- The time is zero where callbacks are found, and else at least `1ms`. -/
theorem calculationBlocktime_range (h : l.calculationBlocktime = some b) :
    if l.findsTasks then b = 0 else 1000 ≤ b ∧ b ≤ MaximumBlockingTime := by
  unfold calculationBlocktime at h
  unfold findsTasks
  cases hpc : l.pc with
  | isIdle =>
    simp only [hpc] at h
    split_ifs at h
    cases h
    simp [MaximumBlockingTime]
  | cycleIsIdle next_timeout =>
    simp only [hpc] at h
    split_ifs at h with hidle
    cases h
    simp [hidle]
  | isIdleAgain next_timeout =>
    simp only [hpc, Option.some.injEq] at h
    subst h
    unfold clampBlocktime MaximumBlockingTime
    simp only [Bool.false_eq_true, if_false]
    split_ifs <;> omega
  | _ => simp [hpc] at h

theorem blocktime_pos_iff (h : l.calculationBlocktime = some b) : 0 < b ↔ l.findsTasks = false := by
  have hrange := calculationBlocktime_range h
  cases htasks : l.findsTasks with
  | true =>
    rw [htasks, if_pos rfl] at hrange
    simp [hrange]
  | false =>
    rw [htasks, if_neg Bool.false_ne_true] at hrange
    exact ⟨fun _ => rfl, fun _ => by omega⟩

end EventLoop

/-! ## `EPollFdEventManager::process` -/

/-- Where the loop thread is. -/
inductive EPollPc
  /-- Not in `process`, and before it in the iteration. -/
  | outside
  /-- At `epoll_wait`. -/
  | wait (blockTime : ℤ)
  /-- In `processEvent`, with the events that it has not come to. -/
  | processEvent (rest : List (ℕ × ℕ)) (numEvents : ℕ)
  /-- Past `process`, and before `processCycle`. -/
  | left
  deriving DecidableEq

/-- Calls of `process`, and what `epoll_wait` would report. -/
structure EPollProcess where
  /-- The channels that are ready, with their events, in the order in which they would be reported. -/
  ready : List (ℕ × ℕ)
  /-- `events.size()`. -/
  size : ℕ
  pc : EPollPc
  /-- The channels that were ready when `process` was entered. -/
  entered : List ℕ
  /-- The timeouts of the calls of `epoll_wait`. -/
  asks : List ℤ
  /-- The channels whose handlers have been called. -/
  handled : List ℕ

namespace EPollProcess

def initial : EPollProcess := ⟨[], 128, .outside, [], [], []⟩

/-- The steps. -/
inductive Op
  /-- `calculationBlocktime` returns, and `process` is called. -/
  | enter (l : EventLoop)
  /-- `epoll_wait` returns. -/
  | wait
  /-- `processEvent` goes on. -/
  | processEvent
  | processCycle
  /-- Channels become ready or unready. -/
  | change (ready : List (ℕ × ℕ))

/-- What the kernel may hold ready: each channel once, with its events. -/
def Ready (ready : List (ℕ × ℕ)) : Prop := (∀ event ∈ ready, event.2 ≠ 0) ∧ (ready.map Prod.fst).Nodup

instance : DecidablePred Ready := fun ready =>
  inferInstanceAs (Decidable ((∀ event ∈ ready, event.2 ≠ 0) ∧ (ready.map Prod.fst).Nodup))

/-- One step. Nothing that is ready becomes unready on the way to `epoll_wait`, where no handler runs. -/
def step (s : EPollProcess) (op : Op) : Option EPollProcess :=
  match op, s.pc with
  | .enter l, .outside =>
    l.calculationBlocktime.map fun blockTime =>
      { s with
        pc := .wait blockTime
        entered := s.ready.map Prod.fst
        asks := []
        handled := [] }
  | .wait, .wait blockTime =>
    let s := { s with asks := s.asks ++ [timeoutMs blockTime] }
    -- What is ready is reported at once. Otherwise the time is up, or a signal arrives.
    let events := s.ready.take s.size
    some { s with pc := if 0 < events.length then .processEvent events events.length else .left }
  | .processEvent, .processEvent [] numEvents =>
    some { s with size := if numEvents = s.size then s.size * 2 else s.size, pc := .left }
  | .processEvent, .processEvent ((channel, events) :: rest) numEvents =>
    some { s with
      handled := if events = 0 then s.handled else s.handled ++ [channel]
      pc := .processEvent rest numEvents }
  | .processCycle, .left => some { s with pc := .outside }
  | .change ready, .wait _ =>
    if Ready ready ∧ s.ready.map Prod.fst <+: ready.map Prod.fst then some { s with ready := ready } else none
  | .change ready, _ => if Ready ready then some { s with ready := ready } else none
  | _, _ => none

/-- The call has asked the kernel, and the handlers of all channels that were ready have been called. -/
structure Polls (s : EPollProcess) : Prop where
  asks : s.asks ≠ []
  ready : ∀ channel ∈ s.entered, channel ∈ s.handled

/-- So has every call that has returned. -/
def Polled (s : EPollProcess) : Prop := s.pc = .left → s.Polls

/-- There was room in `events` for the channels that were ready. -/
def Fits (s : EPollProcess) : Op → Prop
  | .processEvent =>
    match s.pc with
    | .processEvent [] _ => s.entered.length ≤ s.size
    | _ => True
  | _ => True

/-- What holds at each place of the loop thread. Behind `epoll_wait`, the handlers are those of the channels
that it has reported, of the ones that were ready then. -/
def At (s : EPollProcess) : EPollPc → Prop
  | .outside => True
  | .wait _ => s.handled = [] ∧ s.entered <+: s.ready.map Prod.fst
  | .processEvent rest _ =>
    s.asks ≠ [] ∧ (∀ event ∈ rest, event.2 ≠ 0) ∧
      ∃ ready, ready.Nodup ∧ s.entered <+: ready ∧ s.handled ++ rest.map Prod.fst = ready.take s.size
  | .left => s.Polls

/-- The invariant. -/
structure Inv (s : EPollProcess) : Prop where
  size : 0 < s.size
  ready : Ready s.ready
  at_pc : s.At s.pc

theorem inv_initial : Inv initial where
  size := Nat.zero_lt_succ 127
  ready := ⟨fun _ h => absurd h List.not_mem_nil, List.nodup_nil⟩
  at_pc := trivial

variable {s t : EPollProcess}

theorem Inv.polled (h : Inv s) : s.Polled := by
  intro hpc
  have hat := h.at_pc
  rw [hpc] at hat
  exact hat

/-- Of a list without repetitions, the first places hold all of a beginning that fits into them, and of no
other. -/
theorem subset_take_iff {entered ready : List ℕ} (size : ℕ) (hnodup : ready.Nodup)
    (hbegins : entered <+: ready) :
    (∀ channel ∈ entered, channel ∈ ready.take size) ↔ entered.length ≤ size := by
  constructor
  · intro hall
    have hsub := List.subperm_of_subset (hnodup.sublist hbegins.sublist) hall
    exact hsub.length_le.trans (List.length_take_le size ready)
  · intro hfits channel hc
    exact (List.prefix_take_iff.mpr ⟨hbegins, hfits⟩).subset hc

/-- `epoll_wait` reports what is ready, as far as there is room for it. -/
theorem Inv.wait (h : Inv s) {blockTime : ℤ} (hpc : s.pc = .wait blockTime) (hs : s.step .wait = some t) :
    Inv t := by
  have hat := h.at_pc
  rw [hpc] at hat
  obtain ⟨hhandled, hentered⟩ := hat
  simp only [step, hpc, Option.some.injEq] at hs
  subst hs
  have hasked : s.asks ++ [timeoutMs blockTime] ≠ [] :=
    List.append_ne_nil_of_right_ne_nil _ (List.cons_ne_nil _ _)
  by_cases hany : 0 < (s.ready.take s.size).length
  · simp only [hany, if_true]
    refine ⟨h.size, h.ready, hasked,
      fun event he => h.ready.1 event (List.mem_of_mem_take he), s.ready.map Prod.fst, h.ready.2, hentered,
      ?_⟩
    show s.handled ++ (s.ready.take s.size).map Prod.fst = (s.ready.map Prod.fst).take s.size
    rw [hhandled, List.nil_append, List.map_take]
  · simp only [hany, if_false]
    -- There is room, so nothing is ready.
    have hnone : s.ready = [] := by
      have hsize := h.size
      rw [List.length_take] at hany
      exact List.eq_nil_of_length_eq_zero (by omega)
    rw [hnone, List.map_nil] at hentered
    refine ⟨h.size, h.ready, hasked, fun channel hc => ?_⟩
    rw [List.prefix_nil.mp hentered] at hc
    exact absurd hc List.not_mem_nil

/-- `processEvent` calls the handlers of what has been reported, which is all if there was room for all. -/
theorem Inv.processEvent (h : Inv s) {rest : List (ℕ × ℕ)} {numEvents : ℕ}
    (hpc : s.pc = .processEvent rest numEvents) (hs : s.step .processEvent = some t) :
    (t.Polled ↔ s.Fits .processEvent) ∧ (s.Fits .processEvent → Inv t) := by
  have hat := h.at_pc
  rw [hpc] at hat
  obtain ⟨hasked, hevents, ready, hnodup, hbegins, hreported⟩ := hat
  unfold Fits
  simp only [hpc]
  cases rest with
  | nil =>
    rw [List.map_nil, List.append_nil] at hreported
    have hall := subset_take_iff s.size hnodup hbegins
    rw [← hreported] at hall
    simp only [step, hpc, Option.some.injEq] at hs
    subst hs
    refine ⟨⟨fun hpolled => hall.mp (hpolled rfl).ready, fun hfits _ => ⟨hasked, hall.mpr hfits⟩⟩,
      fun hfits => ⟨?_, h.ready, hasked, hall.mpr hfits⟩⟩
    have hsize := h.size
    dsimp only
    split_ifs <;> omega
  | cons event rest =>
    obtain ⟨channel, events⟩ := event
    -- A channel is reported with events, so its handler is called.
    obtain ⟨hevent, hrest⟩ := List.forall_mem_cons.mp hevents
    simp only [step, hpc, Option.some.injEq, if_neg hevent] at hs
    subst hs
    refine ⟨iff_of_true nofun trivial, fun _ => ⟨h.size, h.ready, hasked,
      hrest, ready, hnodup, hbegins, ?_⟩⟩
    show (s.handled ++ [channel]) ++ rest.map Prod.fst = ready.take s.size
    rw [List.append_assoc]
    exact hreported

/-- What becomes ready does not change what has been reported. -/
theorem Inv.change (h : Inv s) {ready : List (ℕ × ℕ)} (hs : s.step (.change ready) = some t) : Inv t := by
  have hat := h.at_pc
  cases hpc : s.pc with
  | wait blockTime =>
    rw [hpc] at hat
    simp only [EPollProcess.step, hpc] at hs
    split_ifs at hs with hchange
    cases hs
    exact ⟨h.size, hchange.1, hat.1, hat.2.trans hchange.2⟩
  | outside | processEvent =>
    rw [hpc] at hat
    simp only [EPollProcess.step, hpc] at hs
    split_ifs at hs with hchange
    cases hs
    exact ⟨h.size, hchange, hat⟩
  | left =>
    rw [hpc] at hat
    simp only [EPollProcess.step, hpc] at hs
    split_ifs at hs with hchange
    cases hs
    exact ⟨h.size, hchange, hat.asks, hat.ready⟩

/-- A step keeps the invariant, but for the end of a call for whose channels there was no room. -/
theorem Inv.step (h : Inv s) {op : Op} (hs : s.step op = some t) :
    (t.Polled ↔ s.Fits op) ∧ (s.Fits op → Inv t) := by
  have hkeeps : ∀ {t}, Inv t → s.Fits op → (t.Polled ↔ s.Fits op) ∧ (s.Fits op → Inv t) :=
    fun ht hfits => ⟨iff_of_true ht.polled hfits, fun _ => ht⟩
  cases op with
  | enter l =>
    refine hkeeps ?_ trivial
    cases hpc : s.pc with
    | outside =>
      simp only [EPollProcess.step, hpc] at hs
      obtain ⟨blockTime, -, rfl⟩ := Option.map_eq_some_iff.mp hs
      exact ⟨h.size, h.ready, rfl, List.prefix_refl _⟩
    | wait | processEvent | left => simp [EPollProcess.step, hpc] at hs
  | wait =>
    refine hkeeps ?_ trivial
    cases hpc : s.pc with
    | wait blockTime => exact h.wait hpc hs
    | outside | processEvent | left => simp [EPollProcess.step, hpc] at hs
  | processEvent =>
    cases hpc : s.pc with
    | processEvent rest numEvents => exact h.processEvent hpc hs
    | outside | wait | left => simp [EPollProcess.step, hpc] at hs
  | processCycle =>
    refine hkeeps ?_ trivial
    cases hpc : s.pc with
    | left =>
      simp only [EPollProcess.step, hpc, Option.some.injEq] at hs
      subst hs
      exact ⟨h.size, h.ready, trivial⟩
    | outside | wait | processEvent => simp [EPollProcess.step, hpc] at hs
  | change ready => exact hkeeps (h.change hs) trivial

end EPollProcess

/-! ## `IOCPFdEventManager::process` -/

/-- Where the loop thread is. -/
inductive IOCPPc
  /-- Not in `process`, and before it in the iteration. -/
  | outside
  /-- At `GetQueuedCompletionStatus`. -/
  | getStatus (timeout currentTime : ℤ)
  /-- At the end of a turn of the loop, at `loop->updateTime()`. -/
  | updateTime (timeout : ℤ)
  /-- Past `process`, and before `processCycle`. -/
  | left
  deriving DecidableEq

/-- Calls of `process`. -/
structure IOCPProcess where
  manager : IOCPFdEventManager
  pc : IOCPPc
  /-- The packets of the port when `process` was entered. -/
  entered : List Packet
  /-- The handle values under which no channel was registered then, or one has been cancelled since. -/
  gone : ℕ → Bool
  /-- The timeouts of the calls of `GetQueuedCompletionStatus`. -/
  asks : List ℤ
  /-- The packets that they have returned. -/
  taken : List Packet
  /-- The operations after which the handler of the channel has been called. -/
  handled : List (ℕ × ℕ)

namespace IOCPProcess

def initial : IOCPProcess := ⟨.initial, .outside, [], fun _ => true, [], [], []⟩

/-- The test of the loop. -/
def test (timeout currentTime : ℤ) : IOCPPc :=
  if currentTime < timeout then .getStatus timeout currentTime else .left

/-- `GetQueuedCompletionStatus` is called. -/
def ask (s : IOCPProcess) (timeout currentTime : ℤ) : IOCPProcess :=
  { s with asks := s.asks ++ [timeoutMs (timeout - currentTime)] }

/-- It returns the first packet, with those of `queue` behind it. -/
def take (s : IOCPProcess) (packet : Packet) (queue : List Packet) : IOCPProcess :=
  { s with manager := { s.manager with queue := queue }, taken := s.taken ++ [packet] }

/-- The body of the loop, after a packet has been returned. -/
def body (s : IOCPProcess) (timeout : ℤ) : Packet → IOCPProcess
  -- `wakeup` passes `WAKEUP_NUMBER` as the number of bytes, and its key is that of no channel.
  | .wakeup => { s with pc := .left }
  | .completion key overlapped status =>
    if status = .aborted then { s with pc := .left }
    else if (s.manager.channels key).isNone then
      -- An error is logged, and the loop goes on; a success ends it.
      { s with pc := if status = .failed then .updateTime timeout else .left }
    else
      let manager := s.manager.dispatch key overlapped status
      { s with
        manager := manager
        handled := if manager.fault.isSome then s.handled else s.handled ++ [(key, overlapped)]
        pc := .updateTime timeout }

/-- The steps. -/
inductive Op
  /-- `calculationBlocktime` returns, and `process` is called. -/
  | enter (l : EventLoop)
  /-- `GetQueuedCompletionStatus` returns. -/
  | getStatus
  /-- The clock is read. -/
  | updateTime (now : ℤ)
  | processCycle
  /-- A step of the kernel, of another thread or of user code. -/
  | other (op : IOCPFdEventManager.Op)

/-- What goes on while the loop thread is in `GetQueuedCompletionStatus`. -/
def concurrent : IOCPFdEventManager.Op → Bool
  | .complete _ _ _ | .wakeup => true
  | .post _ _ _ | .dequeue | .cancel _ | .close _ | .add _ => false

/-- What may go on at each place; only `process` dequeues packets. -/
def mayStep (s : IOCPProcess) (op : IOCPFdEventManager.Op) : Bool :=
  match s.pc with
  | .getStatus _ _ => concurrent op
  | _ => op ≠ .dequeue

/-- A channel that is cancelled is gone. -/
def goneAfter (gone : ℕ → Bool) : IOCPFdEventManager.Op → ℕ → Bool
  | .cancel key => Function.update gone key true
  | _ => gone

/-- What a step does. -/
def next (s : IOCPProcess) (op : Op) : Option IOCPProcess :=
  match op, s.pc with
  | .enter l, .outside =>
    l.calculationBlocktime.map fun blockTime =>
      let currentTime := l.timerEventManager.loopTime
      { s with
        pc := test (currentTime + blockTime) currentTime
        entered := s.manager.queue
        gone := fun key => (s.manager.channels key).isNone
        asks := []
        taken := []
        handled := [] }
  | .getStatus, .getStatus timeout currentTime =>
    match s.manager.queue with
    | [] => some { s.ask timeout currentTime with pc := .left }
    | packet :: queue => some (((s.ask timeout currentTime).take packet queue).body timeout packet)
  | .updateTime now, .updateTime timeout => some { s with pc := test timeout now }
  | .processCycle, .left => some { s with pc := .outside }
  | .other op, _ =>
    if s.mayStep op then
      (s.manager.step op).map fun manager => { s with manager := manager, gone := goneAfter s.gone op }
    else none
  | _, _ => none

/-- One step, until the program is stopped. -/
def step (s : IOCPProcess) (op : Op) : Option IOCPProcess :=
  if s.manager.fault.isSome then none else s.next op

/-- The operation that a packet completes, of a channel that has stayed registered. -/
def completes (gone : ℕ → Bool) : Packet → Option (ℕ × ℕ)
  | .wakeup => none
  | .completion key overlapped _ => if gone key then none else some (key, overlapped)

/-- The call has asked the kernel, and each completion that was there when it began has been dispatched,
unless its channel is gone. -/
structure Polls (s : IOCPProcess) : Prop where
  asks : s.asks ≠ []
  dispatched : (s.entered.filterMap (completes s.gone)).Sublist s.handled

/-- So has every call that has returned. -/
def Polled (s : IOCPProcess) : Prop := s.pc = .left → s.Polls

/-- Whether the loop is left with a packet. -/
def ends (m : IOCPFdEventManager) : Packet → Bool
  | .wakeup => true
  | .completion key _ status => status = .aborted || ((m.channels key).isNone && status ≠ .failed)

/-- The completions, of those that were there when `process` was entered, that are still in the port. -/
def awaited (s : IOCPProcess) : List (ℕ × ℕ) :=
  (s.manager.queue.take (s.entered.length - s.taken.length)).filterMap (completes s.gone)

/-- An iteration finds no callbacks in the queue, and no packet ends the call, nor is its time up, while
completions that were there when it began are in the port. -/
def GoesOn (s : IOCPProcess) : Op → Prop
  | .enter l => l.findsTasks = false
  | .getStatus => ∀ packet ∈ s.manager.queue.head?, ends s.manager packet = true → s.awaited = []
  | .updateTime now => ∀ timeout, s.pc = .updateTime timeout → timeout ≤ now → s.awaited = []
  | .processCycle | .other _ => True

/-- An iteration finds callbacks. -/
def FindsTasks (_ : IOCPProcess) : Op → Prop
  | .enter l => l.findsTasks = true
  | _ => True

/-- A call of `process` on the way. The packets are taken in order, and those that complete an operation of a
channel that stays have been dispatched. -/
structure Calling (s : IOCPProcess) : Prop where
  fifo : s.entered <+: s.taken ++ s.manager.queue
  registered : ∀ key, s.gone key = false → (s.manager.channels key).isSome
  handled : s.manager.fault = none →
    s.handled.filter (fun op => !s.gone op.1) = s.taken.filterMap (completes s.gone)

/-- What holds at each place of the loop thread. -/
def At (s : IOCPProcess) : IOCPPc → Prop
  | .outside => True
  | .getStatus _ _ => s.Calling
  | .updateTime _ => s.Calling ∧ s.asks ≠ []
  | .left => s.Polls

/-- The invariant. -/
def Inv (s : IOCPProcess) : Prop := s.At s.pc

variable {s t : IOCPProcess} {timeout : ℤ}

theorem Inv.polled (h : Inv s) : s.Polled := by
  intro hpc
  unfold Inv at h
  rw [hpc] at h
  exact h

theorem next_of_step {op : Op} (hs : s.step op = some t) : s.manager.fault = none ∧ s.next op = some t := by
  unfold step at hs
  split_ifs at hs with hfault
  exact ⟨Option.not_isSome_iff_eq_none.mp hfault, hs⟩

/-! ### Channels that go -/

/-- What is of a channel that stays, stays the same when others go. -/
theorem completes_mono {gone gone' : ℕ → Bool} (hgone : ∀ key, gone key = true → gone' key = true)
    (packets : List Packet) :
    packets.filterMap (completes gone') =
      (packets.filterMap (completes gone)).filter (fun op => !gone' op.1) := by
  induction packets with
  | nil => rfl
  | cons packet packets ih =>
    cases packet with
    | wakeup => exact ih
    | completion key overlapped status =>
      cases hkey : gone key with
      | true => simp [completes, hkey, hgone key hkey, ih]
      | false => cases hkey' : gone' key <;> simp [completes, hkey, hkey', ih]

theorem filter_completes (gone : ℕ → Bool) (packets : List Packet) :
    (packets.filterMap (completes gone)).filter (fun op => !gone op.1) = packets.filterMap (completes gone) :=
  (completes_mono (fun _ h => h) packets).symm

theorem goneAfter_of_gone {gone : ℕ → Bool} (op : IOCPFdEventManager.Op) {key : ℕ} (h : gone key = true) :
    goneAfter gone op key = true := by
  cases op with
  | cancel key' => simp [goneAfter, Function.update_apply, h]
  | post | complete | wakeup | dequeue | close | add => exact h

/-- A channel that is not gone is registered. -/
theorem registered_step {m m' : IOCPFdEventManager} {gone : ℕ → Bool} {op : IOCPFdEventManager.Op}
    (hm : m.step op = some m') (hop : op ≠ .dequeue)
    (h : ∀ key, gone key = false → (m.channels key).isSome) :
    ∀ key, goneAfter gone op key = false → (m'.channels key).isSome := by
  intro key hkey
  cases (IOCPFdEventManager.stepped_of_step hm).2 with
  | awake | dequeue => exact absurd rfl hop
  | complete | wakeup | close => exact h key hkey
  | post key' | add key' =>
    simp only [Function.update_apply]
    split_ifs
    · rfl
    · exact h key hkey
  | cancel key' =>
    simp only [goneAfter, Function.update_apply] at hkey ⊢
    split_ifs at hkey ⊢
    exact h key hkey

theorem registered_dispatch {m : IOCPFdEventManager} {gone : ℕ → Bool}
    (h : ∀ key, gone key = false → (m.channels key).isSome) (key overlapped : ℕ) (status : CompletionStatus) :
    ∀ key', gone key' = false → ((m.dispatch key overlapped status).channels key').isSome := by
  intro key' hkey'
  unfold IOCPFdEventManager.dispatch
  by_cases haborted : status = .aborted
  · rw [if_pos haborted]
    exact h key' hkey'
  · rw [if_neg haborted]
    cases m.channels key with
    | none => exact h key' hkey'
    | some pending =>
      dsimp only
      cases IOCPFdEventManager.unlink overlapped pending with
      | error crash => exact h key' hkey'
      | ok pending' =>
        simp only [Function.update_apply]
        split_ifs
        · rfl
        · exact h key' hkey'

/-! ### A call -/

/-- What was there has been dispatched exactly when none of it is in the port. -/
theorem Calling.dispatched_iff (h : Calling s) (hfault : s.manager.fault = none) :
    (s.entered.filterMap (completes s.gone)).Sublist s.handled ↔ s.awaited = [] := by
  have hhandled := h.handled hfault
  have hentered : s.entered =
      s.taken.take s.entered.length ++ s.manager.queue.take (s.entered.length - s.taken.length) := by
    rw [← List.take_append]
    exact List.prefix_iff_eq_take.mp h.fifo
  have hsplit : s.entered.filterMap (completes s.gone) =
      (s.taken.take s.entered.length).filterMap (completes s.gone) ++ s.awaited := by
    conv_lhs => rw [hentered]
    exact List.filterMap_append
  constructor
  · intro hsub
    by_cases hall : s.entered.length ≤ s.taken.length
    · unfold awaited
      rw [Nat.sub_eq_zero_of_le hall]
      rfl
    · -- All that has been taken was there, and there is no handler for more than that.
      rw [List.take_of_length_le (by omega), ← hhandled] at hsplit
      have hfiltered := hsub.filter (fun op => !s.gone op.1)
      rw [filter_completes, hsplit] at hfiltered
      have hlength := hfiltered.length_le
      rw [List.length_append] at hlength
      exact List.eq_nil_of_length_eq_zero (by omega)
  · intro hnone
    rw [hsplit, hnone, List.append_nil]
    refine ((List.take_sublist _ _).filterMap _).trans ?_
    rw [← hhandled]
    exact List.filter_sublist

/-- The packet that `GetQueuedCompletionStatus` returns, if it ends the loop. -/
theorem body_of_ends {packet : Packet} (h : ends s.manager packet = true) :
    s.body timeout packet = { s with pc := .left } := by
  cases packet with
  | wakeup => rfl
  | completion key overlapped status =>
    unfold body
    simp only [ends, ne_eq, decide_not, Bool.or_eq_true, decide_eq_true_eq, Bool.and_eq_true,
      Bool.not_eq_true', decide_eq_false_iff_not] at h
    rcases h with haborted | ⟨hchannel, hfailed⟩
    · simp only [haborted, if_true]
    · by_cases haborted : status = .aborted
      · simp only [haborted, if_true]
      · simp only [haborted, hchannel, hfailed, if_false, if_true]

/-- The loop goes on with any other, and calls the handler of a channel that is there. -/
theorem calling_body (timeout : ℤ) (s : IOCPProcess) {packet : Packet} {earlier : List Packet}
    (hends : ends s.manager packet = false) (htaken : s.taken = earlier ++ [packet])
    (hfifo : s.entered <+: s.taken ++ s.manager.queue)
    (hregistered : ∀ key, s.gone key = false → (s.manager.channels key).isSome)
    (hbefore : s.handled.filter (fun op => !s.gone op.1) = earlier.filterMap (completes s.gone)) :
    Calling (s.body timeout packet) ∧ (s.body timeout packet).pc = .updateTime timeout ∧
      (s.body timeout packet).asks = s.asks := by
  have htaken' : s.taken.filterMap (completes s.gone) =
      earlier.filterMap (completes s.gone) ++ [packet].filterMap (completes s.gone) := by
    rw [htaken, List.filterMap_append]
  cases packet with
  | wakeup => cases hends
  | completion key overlapped status =>
    simp only [ends, ne_eq, decide_not, Bool.or_eq_false_iff, decide_eq_false_iff_not,
      Bool.and_eq_false_iff, Bool.not_eq_false', decide_eq_true_eq] at hends
    obtain ⟨haborted, hchannel⟩ := hends
    unfold body
    by_cases hnone : (s.manager.channels key).isNone = true
    · have hfailed : status = .failed := hchannel.resolve_left (by simp [hnone])
      -- No channel is registered, so the one that was there is gone.
      have hgone : s.gone key = true := by
        refine Bool.of_not_eq_false fun hkey => ?_
        have hsome := hregistered key hkey
        rw [Option.isNone_iff_eq_none.mp hnone] at hsome
        cases hsome
      simp only [hnone, hfailed, if_false, if_true, reduceCtorEq]
      refine ⟨⟨hfifo, hregistered, fun _ => ?_⟩, trivial, trivial⟩
      show s.handled.filter (fun op => !s.gone op.1) = s.taken.filterMap (completes s.gone)
      rw [hbefore, htaken']
      simp [completes, hgone]
    · simp only [haborted, hnone, if_false, Bool.false_eq_true]
      refine ⟨⟨?_, registered_dispatch hregistered key overlapped status, fun hfault => ?_⟩, trivial, trivial⟩
      · show s.entered <+: s.taken ++ (s.manager.dispatch key overlapped status).queue
        rw [IOCPFdEventManager.queue_dispatch]
        exact hfifo
      · change (s.manager.dispatch key overlapped status).fault = none at hfault
        show (if (s.manager.dispatch key overlapped status).fault.isSome then s.handled
          else s.handled ++ [(key, overlapped)]).filter (fun op => !s.gone op.1) =
            s.taken.filterMap (completes s.gone)
        rw [hfault, htaken', ← hbefore]
        cases hgone : s.gone key <;> simp [completes, hgone]

/-- `GetQueuedCompletionStatus` returns. The call ends as it should if nothing of what was there is left. -/
theorem Calling.getStatus (h : Calling s) {currentTime : ℤ} (hpc : s.pc = .getStatus timeout currentTime)
    (hfault : s.manager.fault = none) (hs : s.next .getStatus = some t) :
    (t.Polled ↔ s.GoesOn .getStatus) ∧ (s.GoesOn .getStatus → Inv t) := by
  have hasked : (s.ask timeout currentTime).asks ≠ [] :=
    List.append_ne_nil_of_right_ne_nil _ (List.cons_ne_nil _ _)
  have hall := h.dispatched_iff hfault
  unfold GoesOn
  simp only [next, hpc] at hs
  cases hqueue : s.manager.queue with
  | nil =>
    -- Nothing is in the port, so the time is up in the call.
    have hnone : s.awaited = [] := by
      unfold awaited
      rw [hqueue, List.take_nil]
      rfl
    simp only [hqueue, Option.some.injEq] at hs
    subst hs
    have hpolls : Polls { s.ask timeout currentTime with pc := .left } := ⟨hasked, hall.mpr hnone⟩
    exact ⟨iff_of_true (fun _ => hpolls) nofun, fun _ => hpolls⟩
  | cons packet queue =>
    simp only [hqueue, Option.some.injEq] at hs
    simp only [List.head?_cons, Option.mem_def, Option.some.injEq, forall_eq']
    have hfifo := h.fifo
    rw [hqueue] at hfifo
    cases hends : ends s.manager packet with
    | true =>
      -- The call ends with this packet, and what is awaited stays behind it.
      rw [body_of_ends (s := (s.ask timeout currentTime).take packet queue) hends] at hs
      subst hs
      refine ⟨⟨fun hpolled _ => hall.mp (hpolled rfl).dispatched, fun hnone _ => ?_⟩, fun hnone => ?_⟩
      · exact ⟨hasked, hall.mpr (hnone rfl)⟩
      · exact ⟨hasked, hall.mpr (hnone rfl)⟩
    | false =>
      have hfifo' : s.entered <+: (s.taken ++ [packet]) ++ queue := by
        rw [List.append_assoc]
        exact hfifo
      obtain ⟨hcalling, hpc', hasks'⟩ := calling_body timeout ((s.ask timeout currentTime).take packet queue)
        hends rfl hfifo' h.registered (h.handled hfault)
      have hinv : Inv t := by
        subst hs
        unfold Inv
        rw [hpc']
        exact ⟨hcalling, hasks'.symm ▸ hasked⟩
      exact ⟨iff_of_true hinv.polled nofun, fun _ => hinv⟩

/-- The test of the loop at the end of a turn. -/
theorem Calling.updateTime (h : Calling s) (hpc : s.pc = .updateTime timeout) (hasked : s.asks ≠ [])
    (hfault : s.manager.fault = none) {now : ℤ} (hs : s.next (.updateTime now) = some t) :
    (t.Polled ↔ s.GoesOn (.updateTime now)) ∧ (s.GoesOn (.updateTime now) → Inv t) := by
  have hall := h.dispatched_iff hfault
  unfold GoesOn
  simp only [hpc, IOCPPc.updateTime.injEq, forall_eq']
  simp only [next, hpc, Option.some.injEq] at hs
  subst hs
  unfold IOCPProcess.test
  by_cases htime : now < timeout
  · rw [if_pos htime]
    -- There is time for another turn.
    have hcalling : Calling { s with pc := .getStatus timeout now } := ⟨h.fifo, h.registered, h.handled⟩
    exact ⟨iff_of_true nofun fun hlate => absurd hlate (not_le.mpr htime), fun _ => hcalling⟩
  · rw [if_neg htime]
    have hlate := not_lt.mp htime
    refine ⟨⟨fun hpolled _ => hall.mp (hpolled rfl).dispatched, fun hnone _ => ?_⟩, fun hnone => ?_⟩
    · exact ⟨hasked, hall.mpr (hnone hlate)⟩
    · exact ⟨hasked, hall.mpr (hnone hlate)⟩

/-! ### The other steps -/

theorem ne_dequeue_of_mayStep {op : IOCPFdEventManager.Op} (h : s.mayStep op = true) : op ≠ .dequeue := by
  rintro rfl
  unfold mayStep at h
  cases hpc : s.pc <;> simp [hpc, concurrent] at h

theorem other_of_next {op : IOCPFdEventManager.Op} (hs : s.next (.other op) = some t) :
    op ≠ .dequeue ∧ ∃ manager, s.manager.step op = some manager ∧
      t = { s with manager := manager, gone := goneAfter s.gone op } := by
  have hrun : (if s.mayStep op then
      (s.manager.step op).map fun manager => { s with manager := manager, gone := goneAfter s.gone op }
      else none) = some t := by
    unfold next at hs
    cases hpc : s.pc <;> simpa only [hpc] using hs
  split_ifs at hrun with hmay
  obtain ⟨manager, hm, rfl⟩ := Option.map_eq_some_iff.mp hrun
  exact ⟨ne_dequeue_of_mayStep hmay, manager, hm, rfl⟩

/-- What other threads, the kernel and user code do on the way. -/
theorem Calling.other (h : Calling s) {manager : IOCPFdEventManager} {op : IOCPFdEventManager.Op}
    (hm : s.manager.step op = some manager) (hop : op ≠ .dequeue) :
    Calling { s with manager := manager, gone := goneAfter s.gone op } := by
  obtain ⟨hqueue, hfault⟩ := IOCPFdEventManager.queue_grows hm hop
  refine ⟨h.fifo.trans ((List.prefix_append_right_inj _).mpr hqueue), registered_step hm hop h.registered,
    fun hnone => ?_⟩
  have hgone : ∀ key, s.gone key = true → goneAfter s.gone op key = true := fun _ => goneAfter_of_gone op
  show s.handled.filter (fun op' => !goneAfter s.gone op op'.1) =
    s.taken.filterMap (completes (goneAfter s.gone op))
  rw [completes_mono hgone, ← h.handled (hfault.symm.trans hnone), List.filter_filter]
  refine List.filter_congr fun op' _ => ?_
  cases hkey : s.gone op'.1 with
  | true => simp [hgone _ hkey]
  | false => simp

/-- A call that has dispatched what was there has done so when a channel goes. -/
theorem Polls.other (h : Polls s) (manager : IOCPFdEventManager) (op : IOCPFdEventManager.Op) :
    Polls { s with manager := manager, gone := goneAfter s.gone op } := by
  refine ⟨h.asks, ?_⟩
  show (s.entered.filterMap (completes (goneAfter s.gone op))).Sublist s.handled
  rw [completes_mono fun _ => goneAfter_of_gone op]
  exact List.filter_sublist.trans h.dispatched

theorem Inv.other (h : Inv s) {op : IOCPFdEventManager.Op} (hs : s.next (.other op) = some t) : Inv t := by
  obtain ⟨hop, manager, hm, rfl⟩ := other_of_next hs
  unfold Inv at *
  dsimp only
  cases hpc : s.pc with
  | outside => trivial
  | getStatus timeout currentTime =>
    rw [hpc] at h
    exact (hpc ▸ Calling.other h hm hop : Calling _)
  | updateTime timeout =>
    rw [hpc] at h
    exact ⟨(hpc ▸ Calling.other h.1 hm hop : Calling _), h.2⟩
  | left =>
    rw [hpc] at h
    exact (hpc ▸ Polls.other h manager op : Polls _)

/-- `process` is entered. -/
theorem inv_enter {l : EventLoop} (hs : s.next (.enter l) = some t) :
    (t.Polled ↔ l.findsTasks = false) ∧ (l.findsTasks = false → Inv t) := by
  cases hpc : s.pc with
  | outside =>
    simp only [next, hpc] at hs
    obtain ⟨blockTime, hblocktime, rfl⟩ := Option.map_eq_some_iff.mp hs
    have hpos := EventLoop.blocktime_pos_iff hblocktime
    -- The loop is left before anything has been asked when there is no time.
    unfold IOCPProcess.test
    by_cases htime : l.timerEventManager.loopTime < l.timerEventManager.loopTime + blockTime
    · have hnone : l.findsTasks = false := hpos.mp (by omega)
      simp only [htime, if_true]
      refine ⟨iff_of_true nofun hnone, fun _ => ?_⟩
      exact ⟨List.prefix_refl _, fun key hkey => Option.isNone_eq_false_iff.mp hkey, fun _ => rfl⟩
    · have hsome : ¬ l.findsTasks = false := fun hnone => by
        have hlong := hpos.mpr hnone
        omega
      simp only [htime, if_false]
      exact ⟨iff_of_false (fun h => (h rfl).asks rfl) hsome, fun hnone => absurd hnone hsome⟩
  | getStatus | updateTime | left => simp [next, hpc] at hs

/-- A step keeps the invariant exactly when it does not end a call too early. -/
theorem Inv.step (h : Inv s) {op : Op} (hs : s.step op = some t) :
    (t.Polled ↔ s.GoesOn op) ∧ (s.GoesOn op → Inv t) := by
  obtain ⟨hfault, hnext⟩ := next_of_step hs
  have hkeeps : ∀ {t}, Inv t → s.GoesOn op → (t.Polled ↔ s.GoesOn op) ∧ (s.GoesOn op → Inv t) :=
    fun ht hg => ⟨iff_of_true ht.polled hg, fun _ => ht⟩
  cases op with
  | enter l => exact inv_enter hnext
  | getStatus =>
    cases hpc : s.pc with
    | getStatus timeout currentTime =>
      unfold Inv at h
      rw [hpc] at h
      exact Calling.getStatus h hpc hfault hnext
    | outside | updateTime | left => simp [next, hpc] at hnext
  | updateTime now =>
    cases hpc : s.pc with
    | updateTime timeout =>
      unfold Inv at h
      rw [hpc] at h
      exact Calling.updateTime h.1 hpc h.2 hfault hnext
    | outside | getStatus | left => simp [next, hpc] at hnext
  | processCycle =>
    refine hkeeps ?_ trivial
    cases hpc : s.pc with
    | left =>
      simp only [next, hpc, Option.some.injEq] at hnext
      subst hnext
      trivial
    | outside | getStatus | updateTime => simp [next, hpc] at hnext
  | other op => exact hkeeps (h.other hnext) trivial

/-- The packets of `u` are there, and no call of `process` is on the way. -/
structure Stays (u s : IOCPProcess) : Prop where
  outside : s.pc = .outside ∨ s.pc = .left
  queue : u.manager.queue <+: s.manager.queue

theorem Stays.step {u : IOCPProcess} (h : Stays u s) {op : Op} (htasks : s.FindsTasks op)
    (hs : s.step op = some t) : Stays u t := by
  obtain ⟨-, hnext⟩ := next_of_step hs
  cases op with
  | other op =>
    obtain ⟨hop, manager, hm, rfl⟩ := other_of_next hnext
    exact ⟨h.outside, h.queue.trans (IOCPFdEventManager.queue_grows hm hop).1⟩
  | enter l =>
    rcases h.outside with hpc | hpc
    · simp only [next, hpc] at hnext
      obtain ⟨blockTime, hblocktime, rfl⟩ := Option.map_eq_some_iff.mp hnext
      have hzero := EventLoop.calculationBlocktime_range hblocktime
      rw [if_pos (show l.findsTasks = true from htasks)] at hzero
      -- The time is up at once.
      refine ⟨.inr ?_, h.queue⟩
      exact if_neg (by omega)
    · simp [next, hpc] at hnext
  | processCycle =>
    rcases h.outside with hpc | hpc
    · simp [next, hpc] at hnext
    · simp only [next, hpc, Option.some.injEq] at hnext
      subst hnext
      exact ⟨.inl rfl, h.queue⟩
  | getStatus | updateTime => rcases h.outside with hpc | hpc <;> simp [next, hpc] at hnext

/-- While there are callbacks in every iteration the packets stay where they are. -/
theorem stays_of_tasks {ops : List Op} (hpc : s.pc = .outside) (htasks : Machine.Meets step FindsTasks s ops)
    (hr : Machine.run step s ops = some t) : s.manager.queue <+: t.manager.queue :=
  have hstays : Stays s s := ⟨.inl hpc, List.prefix_refl _⟩
  ((Machine.always_of_meets (fun _ h => h) (fun _ _ _ h hg hs => h.step hg hs) hstays htasks).of_run hr).queue

end IOCPProcess

/-- Each call of `process` asks for events and has all that was ready when it was entered dispatched before it
returns: that of the epoll manager exactly when `events` has room for it, and that of the IOCP manager exactly
when it finds no callbacks and does not end while something of it is in the port. -/
theorem polls_iff (epollOps : List EPollProcess.Op) (iocpOps : List IOCPProcess.Op) :
    (Machine.Always EPollProcess.step EPollProcess.Polled .initial epollOps ↔
        Machine.Meets EPollProcess.step EPollProcess.Fits .initial epollOps) ∧
      (Machine.Always IOCPProcess.step IOCPProcess.Polled .initial iocpOps ↔
        Machine.Meets IOCPProcess.step IOCPProcess.GoesOn .initial iocpOps) := by
  constructor
  · exact Machine.always_iff_meets (I := EPollProcess.Inv) (D := fun _ _ => True) (fun _ h => h.polled)
      (fun _ _ _ h _ hs => h.step hs) EPollProcess.inv_initial (Machine.meets_of_labels fun _ _ => trivial)
  · exact Machine.always_iff_meets (I := IOCPProcess.Inv) (D := fun _ _ => True) (fun _ h => h.polled)
      (fun _ _ _ h _ hs => h.step hs) trivial (Machine.meets_of_labels fun _ _ => trivial)

/-- An idle loop takes the completion that is there, and a wakeup behind it, which ends the call and leaves
the next completion to the next one. -/
example : (Machine.run IOCPProcess.step .initial
    [.other (.add 5), .other (.post 5 1 true), .other (.post 5 2 true), .other (.complete 5 1 .success),
      .enter { EventLoop.initial 0 with pc := .isIdle }, .getStatus, .other .wakeup,
      .other (.complete 5 2 .success), .updateTime 20, .getStatus]).map
      (fun s => (s.pc, s.asks, s.handled, s.manager.queue)) =
    some (.left, [10000, 9999], [(5, 1)], [.completion 5 2 .success]) := by decide

/-- A callback is queued, and a completion is left in the port. -/
theorem not_polls_with_tasks :
    ¬ ∀ ops, Machine.Always IOCPProcess.step IOCPProcess.Polled .initial ops := by
  intro h
  have hruns : (Machine.run EventLoop.step (.initial 0)
      [.cycle (.createEvent (.producer 0)), .cycle (.tryEnqueue (.producer 0) true),
        .cycle (.incSize (.producer 0)), .wakeup 0, .advance 0, .advance 0, .advance 0, .advance 0]).map
      (fun l => (l.calculationBlocktime, l.findsTasks)) = some (some 0, true) := by decide
  obtain ⟨l, -, hl⟩ := Option.map_eq_some_iff.mp hruns
  obtain ⟨hblocktime, htasks⟩ : l.calculationBlocktime = some 0 ∧ l.findsTasks = true := by
    simpa only [Prod.mk.injEq] using hl
  have hcompletes : (Machine.run IOCPProcess.step .initial
      [.other (.add 5), .other (.post 5 1 true), .other (.complete 5 1 .success)]).map
      (fun s => (s.pc, s.manager.fault)) = some (.outside, none) := by decide
  obtain ⟨s, hs, houtside⟩ := Option.map_eq_some_iff.mp hcompletes
  obtain ⟨hpc, hfault⟩ : s.pc = .outside ∧ s.manager.fault = none := by
    simpa only [Prod.mk.injEq] using houtside
  obtain ⟨t, ht⟩ : ∃ t, s.step (.enter l) = some t := by
    unfold IOCPProcess.step IOCPProcess.next
    simp [hfault, hpc, hblocktime]
  have hrun := Machine.run_trans hs (show Machine.run IOCPProcess.step s [.enter l] = some t by simp [ht])
  have hnone := (IOCPProcess.inv_enter (IOCPProcess.next_of_step ht).2).1.mp ((h _).of_run hrun)
  rw [htasks] at hnone
  cases hnone

end Hulatang
