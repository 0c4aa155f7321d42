import Hulatang.Io.TimerFiring

/-!
# `InvokeTimer::cancel`

`runAfter` and `runEvery` return a handle with a weak pointer to the watcher. Its `cancel` goes to the
watcher, which calls the `cancelCallback` that the handle has set, which is `onCancel` of the handle, which
is empty: `TimerEventWatcher::doCancel`, which would take the watcher out of the set, is called by nobody.
So a cancelled timer stops only when it was not to fire any more (`stops_iff_cancelsFinished`).

The handles of a loop are named as their watchers are. The runs are those on the loop thread, in which user
code runs outside a pass and in the handlers.
-/

namespace Hulatang

namespace TimerEventManager

/-- `InvokeTimer::onCancel`. -/
def onCancel (m : TimerEventManager) : TimerEventManager := m

/-- `ClosableEventWatcher::cancel`. -/
def cancelWatcher (cancelCallback : Option (TimerEventManager → TimerEventManager)) (m : TimerEventManager) :
    TimerEventManager :=
  match cancelCallback with
  | some callback => callback m
  | none => m

/-- Whether the weak pointer to the watcher can be locked: the set has it, or `process` has, which handles
it. -/
def lock (m : TimerEventManager) (w : ℕ) : Bool :=
  decide (w ∈ m.timerSet) || match m.pc with
    | .handling _ _ timer => decide (timer = w)
    | _ => false

/-- `InvokeTimer::cancel`, on a handle whose constructor has set the `cancelCallback`. -/
def invokeCancel (m : TimerEventManager) (w : ℕ) : TimerEventManager :=
  if m.lock w then cancelWatcher (some onCancel) m else m

/-- The watcher is not to be handled again: it is not in the set, and if it is being handled it does not
rearm. -/
def Finished (m : TimerEventManager) (w : ℕ) : Prop :=
  w ∉ m.timerSet ∧ match m.pc with
    | .handling _ _ timer => timer = w → rearms (m.watcher w).cls = 0
    | _ => True

instance (m : TimerEventManager) (w : ℕ) : Decidable (m.Finished w) := by
  unfold Finished
  cases m.pc <;> infer_instance

/-- The other watchers of the set that `m'` does not have, or has changed. -/
def disturbs (m m' : TimerEventManager) (w : ℕ) : List ℕ :=
  m.timerSet.filter fun v => v ≠ w ∧ (v ∉ m'.timerSet ∨ m'.watcher v ≠ m.watcher v)

/-- A finished watcher stays so. -/
theorem Finished.step {w : ℕ} {m m' : TimerEventManager} {op : Op} (h : Finished m w) (hw : w ∈ m.added)
    (ht : Tracked m) (hs : Placed m op m') : Finished m' w := by
  obtain ⟨hset, hlast⟩ := h
  cases hs with
  | updateTime now => exact ⟨hset, hlast⟩
  | create p v timer hv =>
    have hne : w ≠ v := fun e => hv (e ▸ hw)
    have hwatcher : (m.createAt p v timer).watcher w = m.watcher w := m.setTimer_watcher_of_ne hne timer
    refine ⟨fun hmem => (mem_createAt hmem).elim hne hset, ?_⟩
    rw [hwatcher]
    exact hlast
  | cancel v hpc => exact ⟨fun hmem => hset (KeyedSet.mem_eraseKey.mp hmem).1, hlast⟩
  | process => exact ⟨hset, trivial⟩
  | visitEnd => exact ⟨hset, trivial⟩
  | visitDue c v hpc hle =>
    have hv : v ∈ m.timerSet := ht.iterator v (by rw [hpc]; rfl)
    exact ⟨fun hmem => hset (List.mem_of_mem_erase hmem), fun hvw => absurd (hvw ▸ hv) hset⟩
  | returned => exact ⟨hset, trivial⟩
  | rearmed p c it v i r hpc hcls hr =>
    refine ⟨fun hmem => ?_, trivial⟩
    rcases KeyedSet.mem_of_mem_place hmem with rfl | hmem
    · -- It would have rearmed.
      rw [hpc] at hlast
      have hzero := hlast rfl
      rw [hcls] at hzero
      exact hr hzero
    · exact hset hmem

/-- A rearm that the set drops moves the watcher's own timeout only. -/
theorem rearmAt_none (m : TimerEventManager) (w : ℕ) :
    (m.rearmAt none w).timerSet = m.timerSet ∧
      ∀ v, v ≠ w → (m.rearmAt none w).getTimeout v = m.getTimeout v := by
  unfold rearmAt
  split
  · exact ⟨rfl, fun _ _ => rfl⟩
  · split
    · exact ⟨rfl, fun _ _ => rfl⟩
    · refine ⟨rfl, fun v hv => ?_⟩
      dsimp only
      rw [getTimeout_setTimer, Function.update_of_ne hv]
      rfl

/-- A watcher that rearms may be put in front. -/
theorem rearmAt_front {m : TimerEventManager} {w : ℕ} (hrearms : rearms (m.watcher w).cls ≠ 0) :
    (m.rearmAt (some 0) w).timerSet = w :: m.timerSet := by
  unfold rearmAt
  cases hcls : (m.watcher w).cls with
  | oneShot =>
    rw [hcls] at hrearms
    exact absurd rfl hrearms
  | repeating i r =>
    rw [hcls] at hrearms
    have hr : r ≠ 0 := hrearms
    dsimp only
    rw [if_neg hr]
    rfl

/-- A pass comes to a watcher that is due: it is handled, its handler returns, and the set drops it if it
rearms. -/
theorem Tracked.exists_turn {m : TimerEventManager} (ht : Tracked m) {c : ℤ} {w : ℕ}
    (hpc : m.pc = .head c (some w)) (hle : m.getTimeout w ≤ c) :
    ∃ m₁ m₂, m.stepPlaced (.visit, none) = some m₁ ∧ m₁.pc = .handling c (KeyedSet.after w m.timerSet) w ∧
      m₁.stepPlaced (.handlerReturned, none) = some m₂ ∧ Tracked m₂ ∧
      m₂.pc = .head c (KeyedSet.after w m.timerSet) ∧ m₂.timerSet = m.timerSet.erase w ∧
      ∀ v, v ≠ w → m₂.getTimeout v = m.getTimeout v := by
  have hvisit : m.stepPlaced (.visit, none) = some (m.visit c (some w)) := by
    show m.step .visit = _
    unfold TimerEventManager.step
    dsimp only
    rw [hpc]
  have hdue : m.visit c (some w) =
      { m with
        timerSet := m.timerSet.erase w
        pc := .handling c (KeyedSet.after w m.timerSet) w
        handled := w :: m.handled
        passHandled := w :: m.passHandled } := if_pos hle
  rw [hdue] at hvisit
  have htracked := ht.step (placed_of_stepPlaced hvisit)
  have hreturned : stepPlaced
      { m with
        timerSet := m.timerSet.erase w
        pc := .handling c (KeyedSet.after w m.timerSet) w
        handled := w :: m.handled
        passHandled := w :: m.passHandled } (.handlerReturned, none) = some _ := rfl
  obtain ⟨hset, htimeout⟩ := rearmAt_none
    { m with
      timerSet := m.timerSet.erase w
      pc := .handling c (KeyedSet.after w m.timerSet) w
      handled := w :: m.handled
      passHandled := w :: m.passHandled } w
  exact ⟨_, _, hvisit, rfl, hreturned, htracked.step (placed_of_stepPlaced hreturned), rfl, hset, htimeout⟩

end TimerEventManager

open TimerEventManager (Tracked Placed Finished placed_of_stepPlaced)

/-- The timers of a loop, and what has come of the calls of `cancel`. -/
structure InvokeTimers where
  timers : TimerEventManager
  /-- The timers whose `cancel` has returned. -/
  cancelled : List ℕ
  /-- The timers whose handler has been called after that. -/
  late : List ℕ
  /-- The other timers that a `cancel` has changed. -/
  disturbed : List ℕ

namespace InvokeTimers

/-- Before the first timer. -/
def initial (loopTime : ℤ) : InvokeTimers := ⟨.initial loopTime, [], [], []⟩

/-- What the loop does with its timers, and the calls of `cancel`. -/
inductive Op
  | timers (op : TimerEventManager.Op) (place : Option ℕ)
  | cancel (w : ℕ)
  deriving DecidableEq

/-- The timer whose handler a step calls. -/
def fired (op : TimerEventManager.Op) (timers : TimerEventManager) : Option ℕ :=
  match op, timers.pc with
  | .visit, .handling _ _ w => some w
  | _, _ => none

/-- One step. Nothing but a `cancel` takes a timer out before it is due. -/
def step (t : InvokeTimers) : Op → Option InvokeTimers
  | .timers (.cancel _) _ => none
  | .timers op place =>
    (t.timers.stepPlaced (op, place)).map fun timers =>
      { t with
        timers := timers
        late := (fired op timers).toList.filter (· ∈ t.cancelled) ++ t.late }
  | .cancel w =>
    match t.timers.pc with
    -- Between two turns of the loop of `process` no user code runs.
    | .head _ _ => none
    | _ =>
      if w ∈ t.timers.added then
        some
          { t with
            timers := t.timers.invokeCancel w
            cancelled := w :: t.cancelled
            disturbed := t.timers.disturbs (t.timers.invokeCancel w) w ++ t.disturbed }
      else none

/-- No handler has been called after the `cancel` of its timer, and no other timer has been changed. -/
structure Stops (t : InvokeTimers) : Prop where
  late : t.late = []
  disturbed : t.disturbed = []

/-- `cancel` is called on a timer that is not to fire again. -/
def CancelsFinished (t : InvokeTimers) : Op → Prop
  | .timers _ _ => True
  | .cancel w => t.timers.Finished w

instance (t : InvokeTimers) : DecidablePred t.CancelsFinished
  | .timers _ _ => inferInstanceAs (Decidable True)
  | .cancel w => inferInstanceAs (Decidable (t.timers.Finished w))

/-- What the loop does by itself. -/
def Looping : Op → Prop
  | .timers (.updateTime _) _ | .timers .process _ | .timers .visit _ | .timers .handlerReturned _ => True
  | _ => False

/-! ## Every step -/

/-- The steps, guards included. -/
inductive Stepped (t : InvokeTimers) : Op → InvokeTimers → Prop
  | timers (op : TimerEventManager.Op) (place : Option ℕ) (timers : TimerEventManager)
      (hs : Placed t.timers op timers) :
      Stepped t (.timers op place)
        { t with timers := timers, late := (fired op timers).toList.filter (· ∈ t.cancelled) ++ t.late }
  | cancel (w : ℕ) (hpc : ∀ c it, t.timers.pc ≠ .head c it) (hw : w ∈ t.timers.added) :
      Stepped t (.cancel w)
        { t with
          timers := t.timers.invokeCancel w
          cancelled := w :: t.cancelled
          disturbed := t.timers.disturbs (t.timers.invokeCancel w) w ++ t.disturbed }

theorem stepped_of_step {t t' : InvokeTimers} {op : Op} (h : t.step op = some t') : Stepped t op t' := by
  cases op with
  | timers op place =>
    unfold step at h
    split at h
    case h_1 => cases h
    case h_2 op' place' hcancel heq =>
      cases heq
      obtain ⟨timers, hs, rfl⟩ := Option.map_eq_some_iff.mp h
      exact .timers op place timers (placed_of_stepPlaced hs)
    case h_3 heq => cases heq
  | cancel w =>
    unfold step at h
    dsimp only at h
    split at h
    · cases h
    · split_ifs at h with hw
      cases h
      exact .cancel w ‹_› hw

/-- The whole of `cancel` does nothing. -/
theorem invokeCancel_eq (m : TimerEventManager) (w : ℕ) : m.invokeCancel w = m := by
  unfold TimerEventManager.invokeCancel TimerEventManager.cancelWatcher TimerEventManager.onCancel
  exact ite_self m

theorem disturbs_self (m : TimerEventManager) (w : ℕ) : m.disturbs m w = [] := by
  refine List.filter_eq_nil_iff.mpr fun v hv => ?_
  simp [hv]

/-- A handler that is called is that of a timer of the set. -/
theorem fired_mem {m m' : TimerEventManager} {op : TimerEventManager.Op} (ht : Tracked m)
    (hs : Placed m op m') {w : ℕ} (hw : fired op m' = some w) : w ∈ m.timerSet := by
  cases hs with
  | visitDue c v hpc hle =>
    obtain rfl : v = w := Option.some.inj hw
    exact ht.iterator v (by rw [hpc]; rfl)
  | updateTime | create | cancel | process | visitEnd | returned | rearmed => cases hw

/-- The cancelled timers are finished. -/
structure Inv (t : InvokeTimers) : Prop where
  tracked : Tracked t.timers
  cancelled : ∀ w ∈ t.cancelled, w ∈ t.timers.added ∧ t.timers.Finished w
  stops : Stops t

theorem inv_initial (loopTime : ℤ) : Inv (initial loopTime) :=
  ⟨TimerEventManager.tracked_initial loopTime, by simp [initial], ⟨rfl, rfl⟩⟩

/-- What has been created stays so. -/
theorem added_of_placed {m m' : TimerEventManager} {op : TimerEventManager.Op} (hs : Placed m op m') {w : ℕ}
    (hw : w ∈ m.added) : w ∈ m'.added := by
  cases hs with
  | create p v timer hv => exact List.mem_cons_of_mem v hw
  | updateTime | cancel | process | visitEnd | visitDue | returned | rearmed => exact hw

theorem Inv.step {t t' : InvokeTimers} {op : Op} (h : Inv t) (hg : t.CancelsFinished op)
    (hs : Stepped t op t') : Inv t' := by
  cases hs with
  | timers op place timers hs =>
    refine ⟨h.tracked.step hs, fun w hw => ?_, ?_, h.stops.disturbed⟩
    · obtain ⟨hadded, hfinished⟩ := h.cancelled w hw
      exact ⟨added_of_placed hs hadded, hfinished.step hadded h.tracked hs⟩
    · have hnone : (fired op timers).toList.filter (· ∈ t.cancelled) = [] := by
        refine List.filter_eq_nil_iff.mpr fun w hw hmem => ?_
        rw [Option.mem_toList] at hw
        exact (h.cancelled w (of_decide_eq_true hmem)).2.1 (fired_mem h.tracked hs hw)
      show _ ++ t.late = []
      rw [hnone, h.stops.late, List.nil_append]
  | cancel w hpc hw =>
    rw [invokeCancel_eq, disturbs_self, List.nil_append]
    refine ⟨h.tracked, fun v hv => ?_, h.stops.late, h.stops.disturbed⟩
    rcases List.mem_cons.mp hv with rfl | hv
    · exact ⟨hw, hg⟩
    · exact h.cancelled v hv

/-! ## A timer that is cancelled while it is to fire -/

/-- The loop by itself comes to a late call. -/
abbrev Breaks (t : InvokeTimers) : Prop := Machine.Breaks step Stops Looping t

theorem breaks_of_late {t : InvokeTimers} {w : ℕ} (hw : w ∈ t.late) : Breaks t := by
  refine Machine.breaks_of_not fun h => ?_
  rw [h.late] at hw
  cases hw

/-- A pass comes to a timer that is due. The run breaks there if the timer was cancelled, or where it goes
on with the timer dropped. -/
theorem breaks_of_turn {t : InvokeTimers} (ht : Tracked t.timers) {c : ℤ} {v : ℕ}
    (hpc : t.timers.pc = .head c (some v)) (hle : t.timers.getTimeout v ≤ c)
    (hnext : v ∉ t.cancelled → ∀ t' : InvokeTimers, t'.cancelled = t.cancelled → Tracked t'.timers →
      t'.timers.pc = .head c (KeyedSet.after v t.timers.timerSet) →
      t'.timers.timerSet = t.timers.timerSet.erase v →
      (∀ u, u ≠ v → t'.timers.getTimeout u = t.timers.getTimeout u) → Breaks t') : Breaks t := by
  obtain ⟨m₁, m₂, hvisit, hpc₁, hreturned, htracked, hpc₂, hset, htimeout⟩ := ht.exists_turn hpc hle
  have hstep : t.step (.timers .visit none) = some
      { t with timers := m₁, late := (fired .visit m₁).toList.filter (· ∈ t.cancelled) ++ t.late } := by
    show (t.timers.stepPlaced (.visit, none)).map _ = _
    rw [hvisit]
    rfl
  have hloop : Looping (.timers .visit none) := trivial
  refine .of_step hloop hstep ?_
  by_cases hv : v ∈ t.cancelled
  · -- Its handler has just been called.
    refine breaks_of_late (w := v) (List.mem_append_left _ ?_)
    simp [fired, hpc₁, hv]
  · obtain ⟨t', ht'⟩ : ∃ t' : InvokeTimers, t' =
        { t with
          timers := m₂
          late := (fired .handlerReturned m₂).toList.filter (· ∈ t.cancelled) ++
            ((fired .visit m₁).toList.filter (· ∈ t.cancelled) ++ t.late) } := ⟨_, rfl⟩
    have hback : step
        { t with timers := m₁, late := (fired .visit m₁).toList.filter (· ∈ t.cancelled) ++ t.late }
        (.timers .handlerReturned none) = some t' := by
      show (m₁.stepPlaced (.handlerReturned, none)).map _ = _
      rw [hreturned, ht']
      rfl
    have hloop' : Looping (.timers .handlerReturned none) := trivial
    refine .of_step hloop' hback ?_
    subst ht'
    exact hnext hv _ rfl htracked hpc₂ hset htimeout

/-- A pass in which everything is due comes to a timer of the set. -/
theorem breaks_of_pass {t : InvokeTimers} (ht : Tracked t.timers) {w : ℕ} (hw : w ∈ t.cancelled)
    (hset : w ∈ t.timers.timerSet) {c : ℤ} (hpc : t.timers.pc = .head c t.timers.timerSet.head?)
    (hdue : ∀ v ∈ t.timers.timerSet, t.timers.getTimeout v ≤ c) : Breaks t := by
  generalize h : t.timers.timerSet = set at hset hpc hdue
  induction set generalizing t with
  | nil => cases hset
  | cons v rest ih =>
    have hle := hdue v List.mem_cons_self
    refine breaks_of_turn ht hpc hle fun hv t' hcancelled ht' hpc' hset' htimeout => ?_
    have hne : w ≠ v := fun e => hv (e ▸ hw)
    have hrest : t'.timers.timerSet = rest := by rw [hset', h, List.erase_cons_head]
    have hafter : KeyedSet.after v (v :: rest) = rest.head? := if_pos rfl
    have hnodup := ht.nodup
    rw [h] at hnodup
    -- The pass goes on with the rest of the set.
    refine ih ht' (hcancelled ▸ hw) hrest (List.mem_of_ne_of_mem hne hset) ?_ fun u hu => ?_
    · rw [hpc', h, hafter]
    · have huv : u ≠ v := fun e => (List.nodup_cons.mp hnodup).1 (e ▸ hu)
      rw [htimeout u huv]
      exact hdue u (List.mem_cons_of_mem v hu)

/-- There is a time at which all timers of a list are due. -/
theorem exists_due (key : ℕ → ℤ) (l : List ℕ) : ∃ c, ∀ v ∈ l, key v ≤ c := by
  induction l with
  | nil => exact ⟨0, by simp⟩
  | cons v vs ih =>
    obtain ⟨c, hc⟩ := ih
    refine ⟨max (key v) c, List.forall_mem_cons.mpr ⟨le_max_left _ _, fun u hu => ?_⟩⟩
    exact le_trans (hc u hu) (le_max_right _ _)

/-- The clock goes there, and the loop makes a pass. -/
theorem breaks_of_outside {t : InvokeTimers} (ht : Tracked t.timers) {w : ℕ} (hw : w ∈ t.cancelled)
    (hset : w ∈ t.timers.timerSet) (hpc : t.timers.pc = .outside) : Breaks t := by
  obtain ⟨c, hc⟩ := exists_due t.timers.getTimeout t.timers.timerSet
  have htime : Looping (.timers (.updateTime c) none) := trivial
  have hprocess : Looping (.timers .process none) := trivial
  have hclock : t.step (.timers (.updateTime c) none) =
      some { t with timers := { t.timers with loopTime := c } } := rfl
  have henter : step { t with timers := { t.timers with loopTime := c } } (.timers .process none) =
      some { t with timers := { t.timers with loopTime := c }.enter } := by
    show Option.map _ (if t.timers.pc = .outside then _ else _) = _
    rw [if_pos hpc]
    rfl
  refine .of_step htime hclock (.of_step hprocess henter ?_)
  exact breaks_of_pass (ht.step (.updateTime c) |>.step (.process hpc)) hw hset rfl hc

/-- A pass that is under way comes to its end first. -/
theorem breaks_of_head {t : InvokeTimers} (ht : Tracked t.timers) {w : ℕ} (hw : w ∈ t.cancelled)
    (hset : w ∈ t.timers.timerSet) {c : ℤ} {it : Option ℕ} (hpc : t.timers.pc = .head c it) : Breaks t := by
  generalize hn : t.timers.timerSet.length = n
  induction n generalizing t it with
  | zero =>
    rw [List.eq_nil_of_length_eq_zero hn] at hset
    cases hset
  | succ n ih =>
    have hend : t.timers.visit c it = { t.timers with pc := .outside } → Breaks t := by
      intro hvisit
      have hloop : Looping (.timers .visit none) := trivial
      have hend : t.step (.timers .visit none) =
          some { t with timers := { t.timers with pc := .outside } } := by
        show Option.map _ (t.timers.step .visit) = _
        unfold TimerEventManager.step
        dsimp only
        rw [hpc]
        dsimp only
        rw [hvisit]
        rfl
      exact .of_step hloop hend (breaks_of_outside (ht.step .visitEnd) hw hset rfl)
    -- It ends behind the set or at a timer that is not due; the others it takes out of the set.
    cases it with
    | none => exact hend rfl
    | some v =>
      by_cases hle : t.timers.getTimeout v ≤ c
      case neg => exact hend (if_neg hle)
      case pos =>
        refine breaks_of_turn ht hpc hle fun hv t' hcancelled ht' hpc' hset' _ => ?_
        have hne : w ≠ v := fun e => hv (e ▸ hw)
        have hmem : v ∈ t.timers.timerSet := ht.iterator v (by rw [hpc]; rfl)
        refine ih ht' (hcancelled ▸ hw) ?_ hpc' ?_
        · rw [hset']
          exact (List.mem_erase_of_ne hne).mpr hset
        · rw [hset', List.length_erase_of_mem hmem, hn]
          rfl

/-- A timer that is cancelled while it is to fire fires. -/
theorem breaks_of_cancelled {t : InvokeTimers} (ht : Tracked t.timers) {w : ℕ} (hw : w ∈ t.cancelled)
    (hpc : ∀ c it, t.timers.pc ≠ .head c it) (hnot : ¬ t.timers.Finished w) : Breaks t := by
  cases hat : t.timers.pc with
  | head c it => exact absurd hat (hpc c it)
  | outside =>
    have hset : w ∈ t.timers.timerSet := by
      by_contra hset
      refine hnot ⟨hset, ?_⟩
      rw [hat]
      trivial
    exact breaks_of_outside ht hw hset hat
  | handling c it v =>
    -- The handler returns; a timer that rearms is put back.
    have hloop : ∀ p, Looping (.timers .handlerReturned p) := fun _ => trivial
    have hreturned : ∀ p, t.timers.stepPlaced (.handlerReturned, p) =
        some { t.timers.rearmAt p v with pc := .head c it } := fun p => by
      simp only [TimerEventManager.stepPlaced, hat]
    have hstep : ∀ p, t.step (.timers .handlerReturned p) =
        some { t with timers := { t.timers.rearmAt p v with pc := .head c it } } := fun p => by
      show Option.map _ (t.timers.stepPlaced (.handlerReturned, p)) = _
      rw [hreturned p]
      rfl
    have htracked : ∀ p, Tracked { t.timers.rearmAt p v with pc := .head c it } := fun p =>
      ht.step (placed_of_stepPlaced (hreturned p))
    by_cases hset : w ∈ t.timers.timerSet
    case pos =>
      have hsame := (t.timers.rearmAt_none v).1
      exact .of_step (hloop none) (hstep none) (breaks_of_head (htracked none) hw (hsame ▸ hset) rfl)
    case neg =>
      -- It is its own handler that has cancelled it.
      have hrearms : v = w ∧ TimerEventManager.rearms (t.timers.watcher w).cls ≠ 0 := by
        by_contra hlast
        refine hnot ⟨hset, ?_⟩
        rw [hat]
        intro hvw
        by_contra hzero
        exact hlast ⟨hvw, hzero⟩
      obtain ⟨rfl, hrearms⟩ := hrearms
      have hback := TimerEventManager.rearmAt_front hrearms
      exact .of_step (hloop (some 0)) (hstep (some 0))
        (breaks_of_head (htracked (some 0)) hw (hback ▸ List.mem_cons_self) rfl)

/-! ## Every run -/

/-- However the loop goes on, no timer fires after its `cancel` in exactly the runs that only cancel timers
that are not to fire again. -/
theorem stops_iff_cancelsFinished (loopTime : ℤ) (ops : List Op) :
    Machine.Robust step Stops Looping (initial loopTime) ops ↔
      Machine.Meets step CancelsFinished (initial loopTime) ops := by
  refine Machine.robust_iff_meets (I := Inv) (fun _ h => h.stops) (fun t op hop => ?_)
    (fun _ _ _ h hg hs => h.step hg (stepped_of_step hs)) (fun t op t' h hg hs => ?_) (inv_initial loopTime)
  · cases op with
    | timers op place => trivial
    | cancel w => exact hop.elim
  · cases stepped_of_step hs with
    | timers op place timers hs => exact absurd trivial hg
    | cancel w hpc hw =>
      rw [invokeCancel_eq]
      exact breaks_of_cancelled h.tracked List.mem_cons_self hpc hg

/-- A timer that is cancelled before its deadline fires. -/
theorem fires_after_cancel :
    ¬ ∀ (loopTime : ℤ) (ops : List Op), Machine.Always step Stops (initial loopTime) ops := by
  intro h
  have hrun := h 0
    [.timers (.create 1 ⟨5, .oneShot⟩) (some 0), .cancel 1, .timers (.updateTime 5) none,
      .timers .process none, .timers .visit none]
  exact absurd (hrun.of_run rfl).late (by decide)

end InvokeTimers

end Hulatang
