import Hulatang.Io.TimerInvariants

/-!
# A pass ends

While `process` goes over the set, a handler may add any number of one-shot watchers, with timeouts before
or behind the iterator. The iterator is moved before the handler runs and never goes back, so the timeouts
that a pass handles ascend strictly, and none is later than the time that the pass has read at its start.
There are only so many integers between the first of them and that time (`process_ends`).
-/

namespace Hulatang.TimerEventManager

open KeyedSet (after)

/-- The address of a new watcher. -/
def fresh (m : TimerEventManager) : ℕ := m.added.max?.getD 0 + 1

/-- `handler()` of a one-shot watcher, which creates others with the timeouts. -/
def runHandler (m : TimerEventManager) (timeouts : List ℤ) : TimerEventManager :=
  timeouts.foldl (fun m timeout => m.create m.fresh ⟨timeout, .oneShot⟩) m

/-- One turn of the loop of `process`. What a handler creates may depend on all that there is. -/
def turn (handler : TimerEventManager → List ℤ) (m : TimerEventManager) (currentTime : ℤ)
    (it : Option ℕ) : TimerEventManager :=
  let m := m.visit currentTime it
  match m.pc with
  | .handling currentTime it timer =>
    { (m.runHandler (handler m)).rearm timer with pc := .head currentTime it }
  | _ => m

/-- The loop of `process`, which returns within so many turns or not. -/
def processLoop (handler : TimerEventManager → List ℤ) : ℕ → TimerEventManager → Option TimerEventManager
  | 0, _ => none
  | turns + 1, m =>
    match m.pc with
    | .outside => some m
    | .head currentTime it => processLoop handler turns (m.turn handler currentTime it)
    | .handling _ _ _ => none

/-- `process`. -/
def process (handler : TimerEventManager → List ℤ) (turns : ℕ) (m : TimerEventManager) :
    Option TimerEventManager := processLoop handler turns m.enter

/-- What a pass has handled ascends, up to the iterator and to the time of the pass. -/
structure Passing (m : TimerEventManager) : Prop where
  oneShots : OneShots m
  added : ∀ v ∈ m.passHandled, v ∈ m.added
  ascending : m.passHandled.Pairwise fun v w => m.getTimeout w < m.getTimeout v
  due : ∀ c, m.pc.time = some c → ∀ v ∈ m.passHandled, m.getTimeout v ≤ c
  ahead : ∀ w, m.pc.iterator = some w → ∀ v ∈ m.passHandled, m.getTimeout v < m.getTimeout w

/-- The watchers that there are keep their timeouts when another one is created. -/
theorem getTimeout_create {m : TimerEventManager} {w v : ℕ} (timer : TimerEventWatcher) (hw : w ∉ m.added)
    (hv : v ∈ m.added) : (m.create w timer).getTimeout v = m.getTimeout v := by
  have hvw : v ≠ w := fun e => hw (e ▸ hv)
  change (m.setTimer w timer).getTimeout v = m.getTimeout v
  rw [getTimeout_setTimer, Function.update_of_ne hvw]

theorem fresh_not_mem (m : TimerEventManager) : m.fresh ∉ m.added := by
  intro hmem
  exact Nat.not_succ_le_self _ (List.le_max?_getD_of_mem hmem)

theorem Passing.create {m : TimerEventManager} (h : Passing m) {w : ℕ} {timer : TimerEventWatcher}
    (hpc : ∀ c it, m.pc ≠ .head c it) (hw : w ∉ m.added) (hcls : timer.cls = .oneShot) :
    Passing (m.create w timer) where
  oneShots := h.oneShots.step (.create w timer hpc hw) hcls
  added v hv := List.mem_cons_of_mem w (h.added v hv)
  ascending := h.ascending.imp_of_mem fun {v u} hv hu hlt => by
    rw [getTimeout_create timer hw (h.added v hv), getTimeout_create timer hw (h.added u hu)]
    exact hlt
  due c hc v hv := by
    rw [getTimeout_create timer hw (h.added v hv)]
    exact h.due c hc v hv
  ahead u hu v hv := by
    have hadded := h.oneShots.ordered.set_added u (h.oneShots.ordered.iterator u hu)
    rw [getTimeout_create timer hw (h.added v hv), getTimeout_create timer hw hadded]
    exact h.ahead u hu v hv

/-- A pass starts with nothing handled. -/
theorem OneShots.passing_enter {m : TimerEventManager} (h : OneShots m) (hpc : m.pc = .outside) :
    Passing m.enter where
  oneShots := h.step (.process hpc) trivial
  added _ hv := absurd hv List.not_mem_nil
  ascending := List.Pairwise.nil
  due _ _ _ hv := absurd hv List.not_mem_nil
  ahead _ _ _ hv := absurd hv List.not_mem_nil

theorem visit_due {m : TimerEventManager} {c : ℤ} {w : ℕ} (hle : m.getTimeout w ≤ c) :
    m.visit c (some w) =
      { m with
        timerSet := m.timerSet.erase w
        pc := .handling c (after w m.timerSet) w
        handled := w :: m.handled
        passHandled := w :: m.passHandled } := if_pos hle

/-- A due visit handles the watcher at the iterator, which all those handled before precede. -/
theorem Passing.visit {m : TimerEventManager} (h : Passing m) {c : ℤ} {w : ℕ} (hpc : m.pc = .head c (some w))
    (hle : m.getTimeout w ≤ c) : Passing (m.visit c (some w)) := by
  have hw : w ∈ m.timerSet := h.oneShots.ordered.iterator w (by rw [hpc]; rfl)
  have hbefore := h.ahead w (by rw [hpc]; rfl)
  have hone := h.oneShots.step (.visitDue c w hpc hle) trivial
  rw [visit_due hle]
  refine ⟨hone, ?_, List.pairwise_cons.mpr ⟨hbefore, h.ascending⟩, ?_, fun u hu => ?_⟩
  · exact List.forall_mem_cons.mpr ⟨h.oneShots.ordered.set_added w hw, h.added⟩
  · rintro c' ⟨⟩
    exact List.forall_mem_cons.mpr ⟨hle, h.due c (by rw [hpc]; rfl)⟩
  · -- The iterator has moved to a later timeout.
    obtain ⟨-, hlt, -⟩ := h.oneShots.ordered.sorted.after_eq_some hw hu
    exact List.forall_mem_cons.mpr ⟨hlt, fun v hv => (hbefore v hv).trans hlt⟩

/-- What handlers leave as it is. -/
structure Ran (m m' : TimerEventManager) : Prop where
  passing : Passing m'
  pc : m'.pc = m.pc
  passHandled : m'.passHandled = m.passHandled
  getTimeout : ∀ v ∈ m.added, m'.getTimeout v = m.getTimeout v
  added : ∀ v ∈ m.added, v ∈ m'.added
  run : ∃ ops, Machine.run step m ops = some m'

theorem Passing.runHandler {m : TimerEventManager} (h : Passing m) (timeouts : List ℤ)
    (hpc : ∀ c it, m.pc ≠ .head c it) : Ran m (m.runHandler timeouts) := by
  induction timeouts generalizing m with
  | nil => exact ⟨h, rfl, rfl, fun _ _ => rfl, fun _ hv => hv, [], rfl⟩
  | cons timeout timeouts ih =>
    have hw := m.fresh_not_mem
    have hstep : m.step (.create m.fresh ⟨timeout, .oneShot⟩) =
        some (m.create m.fresh ⟨timeout, .oneShot⟩) := by
      unfold step
      dsimp only
      split
      · rename_i c it hhead
        exact absurd hhead (hpc c it)
      · exact if_neg hw
    have hcreated : Passing (m.create m.fresh ⟨timeout, .oneShot⟩) := h.create hpc hw rfl
    obtain ⟨hpassing, hpc', hhandled, htimeout, hadded, ops, hrun⟩ := ih hcreated hpc
    refine ⟨hpassing, hpc', hhandled, fun v hv => ?_, fun v hv => hadded v (List.mem_cons_of_mem _ hv), ?_⟩
    · exact (htimeout v (List.mem_cons_of_mem _ hv)).trans (getTimeout_create _ hw hv)
    · refine ⟨.create m.fresh ⟨timeout, .oneShot⟩ :: ops, ?_⟩
      rw [Machine.run_cons, hstep]
      exact hrun

theorem Passing.rearm_eq {m : TimerEventManager} (h : Passing m) {c : ℤ} {it : Option ℕ} {w : ℕ}
    (hpc : m.pc = .handling c it w) : m.rearm w = m := by
  unfold rearm
  rw [h.oneShots.oneShot w (h.oneShots.ordered.handling c it w hpc).1]

/-- A one-shot handler returns to the head of the loop. -/
theorem Passing.returned {m : TimerEventManager} (h : Passing m) {c : ℤ} {it : Option ℕ} {w : ℕ}
    (hpc : m.pc = .handling c it w) :
    m.step .handlerReturned = some { m with pc := .head c it } ∧ Passing { m with pc := .head c it } := by
  have hstep : m.step .handlerReturned = some { m with pc := .head c it } := by
    unfold step
    dsimp only
    rw [hpc]
    dsimp only
    rw [h.rearm_eq hpc]
  refine ⟨hstep, h.oneShots.step (stepped_of_step hstep) trivial, h.added,
    h.ascending, ?_, fun u hu => h.ahead u (by rw [hpc]; exact hu)⟩
  rintro c' ⟨⟩
  exact h.due c (by rw [hpc]; rfl)

/-- Where a turn of the loop leads. -/
inductive Turned (m : TimerEventManager) (c : ℤ) (it : Option ℕ) (m' : TimerEventManager) : Prop
  /-- The watcher at the iterator is not due, or there is none. -/
  | ended (he : m' = { m with pc := .outside }) (hrun : m.step .visit = some m')
  | handled (w : ℕ) (it' : Option ℕ) (hit : it = some w) (hle : m.getTimeout w ≤ c) (hpassing : Passing m')
      (hpc : m'.pc = .head c it') (hafter : ∀ u, it' = some u → m.getTimeout w < m'.getTimeout u)
      (hrun : ∃ ops, Machine.run step m ops = some m')

theorem Passing.turn {m : TimerEventManager} (h : Passing m) {c : ℤ} {it : Option ℕ} (hpc : m.pc = .head c it)
    (handler : TimerEventManager → List ℤ) : Turned m c it (m.turn handler c it) := by
  have hvisit : m.step .visit = some (m.visit c it) := by
    unfold step
    dsimp only
    rw [hpc]
  cases it with
  | none => exact .ended rfl hvisit
  | some w =>
    by_cases hle : m.getTimeout w ≤ c
    · have hvisited := h.visit hpc hle
      have hpc₁ : (m.visit c (some w)).pc = .handling c (after w m.timerSet) w := by rw [visit_due hle]
      have hmem : w ∈ (m.visit c (some w)).passHandled := by
        rw [visit_due hle]
        exact List.mem_cons_self
      have htimeout₁ : (m.visit c (some w)).getTimeout w = m.getTimeout w := by
        rw [visit_due hle]
        rfl
      -- From here on only what holds of the state after the visit matters, not how it comes about.
      unfold TimerEventManager.turn
      generalize m.visit c (some w) = m₁ at *
      obtain ⟨hpassing, hpc₂, hhandled, htimeout, -, ops, hrun⟩ :=
        hvisited.runHandler (handler m₁) (by simp [hpc₁])
      obtain ⟨hreturns, hhead⟩ := hpassing.returned (hpc₂.trans hpc₁)
      dsimp only
      rw [hpc₁]
      dsimp only
      rw [hpassing.rearm_eq (hpc₂.trans hpc₁)]
      refine .handled w (after w m.timerSet) rfl hle hhead rfl (fun u hu => ?_)
        ⟨.visit :: ops ++ [.handlerReturned], ?_⟩
      · have hlast : w ∈ (m₁.runHandler (handler m₁)).passHandled := by
          rw [hhandled]
          exact hmem
        have hahead := hhead.ahead u hu w hlast
        have hsame : (m₁.runHandler (handler m₁)).getTimeout w = m.getTimeout w :=
          (htimeout w (hvisited.added w hmem)).trans htimeout₁
        rw [← hsame]
        exact hahead
      · rw [List.cons_append, Machine.run_cons, hvisit]
        refine Machine.run_trans hrun ?_
        rw [Machine.run_cons, hreturns]
        rfl
    · have hend : m.visit c (some w) = { m with pc := .outside } := if_neg hle
      have hturn : m.turn handler c (some w) = { m with pc := .outside } := by
        unfold TimerEventManager.turn
        rw [hend]
      rw [hturn]
      exact .ended rfl (hvisit.trans (congrArg some hend))

/-- How far the timeout at the iterator is from the end of what is due. -/
def left (m : TimerEventManager) (c : ℤ) : Option ℕ → ℕ
  | none => 0
  | some w => (c + 1 - m.getTimeout w).toNat

/-- What a pass leaves when it returns. -/
structure Passed (m : TimerEventManager) (c : ℤ) (m' : TimerEventManager) : Prop where
  outside : m'.pc = .outside
  ascending : m'.passHandled.Pairwise fun v w => m'.getTimeout w < m'.getTimeout v
  due : ∀ v ∈ m'.passHandled, m'.getTimeout v ≤ c
  run : ∃ ops, Machine.run step m ops = some m'

/-- Each turn takes the iterator to a later timeout, so the loop returns within as many turns. -/
theorem Passing.processLoop {m : TimerEventManager} (h : Passing m) {c : ℤ} {it : Option ℕ}
    (hpc : m.pc = .head c it) (handler : TimerEventManager → List ℤ) {turns : ℕ}
    (hturns : m.left c it < turns) :
    ∃ m', m.processLoop handler (turns + 1) = some m' ∧ Passed m c m' := by
  induction turns generalizing m it with
  | zero => exact absurd hturns (Nat.not_lt_zero _)
  | succ turns ih =>
    have hloop : m.processLoop handler (turns + 1 + 1) =
        (m.turn handler c it).processLoop handler (turns + 1) := by
      rw [TimerEventManager.processLoop, hpc]
    rw [hloop]
    cases h.turn hpc handler with
    | ended he hrun =>
      have hreturns : (m.turn handler c it).processLoop handler (turns + 1) =
          some (m.turn handler c it) := by
        rw [TimerEventManager.processLoop, he]
      refine ⟨_, hreturns, ?_⟩
      rw [he] at hrun ⊢
      refine ⟨rfl, h.ascending, h.due c (by rw [hpc]; rfl), [.visit], ?_⟩
      rw [Machine.run_cons, hrun]
      rfl
    | handled w it' hit hle hpassing hpc' hafter hrun =>
      -- What follows the watcher has a later timeout.
      have hless : (m.turn handler c it).left c it' < turns := by
        rw [hit] at hturns
        unfold left at hturns ⊢
        cases it' with
        | none =>
          dsimp only at hturns ⊢
          omega
        | some u =>
          have hlt := hafter u rfl
          dsimp only at hturns ⊢
          omega
      obtain ⟨m', hm', houtside, hascending, hdue, later, hlater⟩ := ih hpassing hpc' hless
      obtain ⟨ops, hops⟩ := hrun
      exact ⟨m', hm', houtside, hascending, hdue, ops ++ later, Machine.run_trans hops hlater⟩

/-- For all one-shot watchers that are pending, and whatever the handlers add, a pass returns after finitely
many calls of `handle()`. The timeouts that it handles ascend strictly, up to the time that it read. -/
theorem process_ends {m : TimerEventManager} (h : OneShots m) (hpc : m.pc = .outside)
    (handler : TimerEventManager → List ℤ) :
    ∃ turns m', m.process handler turns = some m' ∧
      (m'.passHandled.reverse.map m'.getTimeout).Pairwise (· < ·) ∧
      (∀ w ∈ m'.passHandled, m'.getTimeout w ≤ m.loopTime) ∧
      ∃ ops, Machine.run step m (.process :: ops) = some m' := by
  obtain ⟨m', hm', -, hascending, hdue, ops, hops⟩ :=
    (h.passing_enter hpc).processLoop (c := m.loopTime) rfl handler (Nat.lt_succ_self _)
  refine ⟨_, m', hm', ?_, hdue, ops, ?_⟩
  · rw [List.pairwise_map, List.pairwise_reverse]
    exact hascending
  · have hstep : m.step .process = some m.enter := if_pos hpc
    rw [Machine.run_cons, hstep]
    exact hops

/-- Two watchers that are due at `10`. -/
def twoDue : TimerEventManager := ((initial 10).create 0 ⟨3, .oneShot⟩).create 1 ⟨7, .oneShot⟩

/-- A handler that adds a watcher in the past and one that is due now. -/
def addsTwo (m : TimerEventManager) : List ℤ := [2, m.loopTime]

/-- Every handler adds two watchers that are due. -/
theorem process_ends_adding :
    ∃ turns m', twoDue.process addsTwo turns = some m' ∧
      (m'.passHandled.reverse.map m'.getTimeout).Pairwise (· < ·) ∧
      (∀ w ∈ m'.passHandled, m'.getTimeout w ≤ twoDue.loopTime) ∧
      ∃ ops, Machine.run step twoDue (.process :: ops) = some m' := by
  refine process_ends ?_ rfl addsTwo
  have hfirst : OneShots ((initial 10).create 0 ⟨3, .oneShot⟩) :=
    (oneShots_initial 10).step (.create 0 _ (fun _ _ => nofun) (by decide)) rfl
  exact hfirst.step (.create 1 _ (fun _ _ => nofun) (by decide)) rfl

example : (twoDue.process addsTwo 5).map (fun m => m.passHandled.reverse.map m.getTimeout) =
    some [3, 7, 10] := by
  decide

end Hulatang.TimerEventManager
