import Hulatang.Io.TimerInvariants

/-!
# Timer order with repeating watchers

`RepeatTimerEventWatcher::handle` adds itself under the timeout that has just elapsed, and moves the
timeout afterwards. In a run of pairwise different deadlines the set is sorted, `nextTriggerTime`
names the least deadline, and a pass handles every watcher that was due when it started, exactly
when every such move fits the watcher's place in the set (`RearmFits`).

`Complete` carries the pass: a due watcher that is not handled yet lies at or after the iterator, and
is due by the time the pass compares with.
-/

namespace Hulatang.TimerEventManager

open KeyedSet (Sorted Fits emplace after)

/-- What the set, `nextTriggerTime` and a finished pass are to satisfy. -/
structure TimerOrder (m : TimerEventManager) : Prop where
  sorted : m.timerSet.Pairwise fun v w => m.getTimeout v ≤ m.getTimeout w
  nextTriggerTime : m.timerSet ≠ [] → ∃ w ∈ m.timerSet,
    m.nextTriggerTime = m.getTimeout w - m.loopTime ∧ ∀ v ∈ m.timerSet, m.getTimeout w ≤ m.getTimeout v
  complete : m.pc = .outside → ∀ d ∈ m.due, d ∈ m.passHandled

/-- A new deadline, of a created or of a rearmed watcher, is none of those pending, and not that of the
watcher being handled. -/
def DifferentDeadlines (m : TimerEventManager) : Op → Prop
  | .create _ timer => (∀ v ∈ m.timerSet, m.getTimeout v ≠ timer.timeout) ∧
      ∀ c it w, m.pc = .handling c it w → m.getTimeout w ≠ timer.timeout
  | .handlerReturned => ∀ c it w i r, m.pc = .handling c it w →
      (m.watcher w).cls = .repeating i r → r ≠ 0 → ∀ v ∈ m.timerSet, m.getTimeout v ≠ m.loopTime + i
  | _ => True

/-- Each due watcher has been handled, or lies at or after the iterator and is still due. -/
def Complete (m : TimerEventManager) : Prop :=
  ∀ d ∈ m.due, d ∈ m.passHandled ∨
    ∃ c v, m.pc.time = some c ∧ m.pc.iterator = some v ∧ d ∈ m.timerSet ∧
      m.getTimeout v ≤ m.getTimeout d ∧ m.getTimeout d ≤ c

/-- No pending watcher has the deadline of the one being handled. -/
def HandledFresh (m : TimerEventManager) : Prop :=
  ∀ c it w, m.pc = .handling c it w → ∀ v ∈ m.timerSet, m.getTimeout v ≠ m.getTimeout w

/-- The invariant of a run of different deadlines all of whose rearms have fit. -/
structure DeadlineInv (m : TimerEventManager) : Prop where
  ordered : Ordered m
  complete : Complete m
  fresh : HandledFresh m

theorem deadlineInv_initial (loopTime : ℤ) : DeadlineInv (initial loopTime) where
  ordered := ordered_initial loopTime
  complete := by simp [Complete, initial]
  fresh := by simp [HandledFresh, initial]

/-- A sorted set gives `nextTriggerTime` the least deadline. -/
theorem Ordered.nextTriggerTime {m : TimerEventManager} (h : Ordered m) (hne : m.timerSet ≠ []) :
    ∃ w ∈ m.timerSet, m.nextTriggerTime = m.getTimeout w - m.loopTime ∧
      ∀ v ∈ m.timerSet, m.getTimeout w ≤ m.getTimeout v := by
  obtain ⟨w, hw⟩ := Option.isSome_iff_exists.mp (List.isSome_head?.mpr hne)
  refine ⟨w, List.mem_of_mem_head? hw, ?_, h.sorted.head_le hw⟩
  unfold TimerEventManager.nextTriggerTime
  rw [hw]

theorem DeadlineInv.timerOrder {m : TimerEventManager} (h : DeadlineInv m) : TimerOrder m where
  sorted := h.ordered.sorted.imp le_of_lt
  nextTriggerTime := h.ordered.nextTriggerTime
  complete hpc d hd := by
    rcases h.complete d hd with hh | ⟨c, v, htime, -⟩
    · exact hh
    · rw [hpc] at htime
      cases htime

/-- A rearm that leaves the set sorted has fitted, when its new deadline is none of those pending. -/
theorem DeadlineInv.fits_of_sorted {m : TimerEventManager} (h : DeadlineInv m) {c : ℤ}
    {it : Option ℕ} {w : ℕ} (timer : TimerEventWatcher) (hpc : m.pc = .handling c it w)
    (hnew : ∀ v ∈ m.timerSet, m.getTimeout v ≠ timer.timeout)
    (hs : (m.add w).timerSet.Pairwise fun u v =>
      ((m.add w).setTimer w timer).getTimeout u ≤ ((m.add w).setTimer w timer).getTimeout v) :
    Fits m.getTimeout w timer.timeout m.timerSet := by
  rw [getTimeout_setTimer] at hs
  -- No pending watcher has the elapsed timeout, so `emplace` has put the watcher back.
  have hmem : w ∈ emplace m.getTimeout w m.timerSet :=
    (KeyedSet.mem_emplace_of_fresh (h.fresh c it w hpc)).mpr (.inl rfl)
  have hfits := KeyedSet.fits_of_update (KeyedSet.sorted_emplace h.ordered.sorted) hmem
    (fun v hv hvw => hnew v ((KeyedSet.mem_of_mem_emplace hv).resolve_left hvw)) hs
  exact fun v hv => hfits v (KeyedSet.mem_emplace_of_mem hv)

/-- What the pass still has to handle, it still finds when a watcher is created or rearmed: those
pending keep their deadlines. -/
theorem Complete.of_grow {m m' : TimerEventManager} (h : Complete m) (hdue : m'.due = m.due)
    (hpass : m'.passHandled = m.passHandled) (htime : m'.pc.time = m.pc.time)
    (hit : m'.pc.iterator = m.pc.iterator) (hiter : ∀ v, m.pc.iterator = some v → v ∈ m.timerSet)
    (hset : ∀ v ∈ m.timerSet, v ∈ m'.timerSet ∧ m'.getTimeout v = m.getTimeout v) :
    Complete m' := by
  intro d hd
  rw [hdue] at hd
  rcases h d hd with hh | ⟨c, v, hc, hv, hmem, hvd, hdc⟩
  · exact .inl (hpass ▸ hh)
  · obtain ⟨hmem', hkey⟩ := hset d hmem
    refine .inr ⟨c, v, htime.trans hc, hit.trans hv, hmem', ?_, hkey ▸ hdc⟩
    rw [hkey, (hset v (hiter v hv)).2]
    exact hvd

/-- A due visit handles the watcher at the iterator; the due ones that remain follow it. -/
theorem DeadlineInv.complete_visitDue {m : TimerEventManager} (h : DeadlineInv m) {c : ℤ} {w : ℕ}
    (hpc : m.pc = .head c (some w)) :
    Complete
      { m with
        timerSet := m.timerSet.erase w
        pc := .handling c (after w m.timerSet) w
        handled := w :: m.handled
        passHandled := w :: m.passHandled } := by
  have hw : w ∈ m.timerSet := h.ordered.iterator w (by rw [hpc]; rfl)
  intro d hd
  rcases h.complete d hd with hh | ⟨c', v, hc, hv, hmem, hvd, hdc⟩
  · exact .inl (List.mem_cons_of_mem w hh)
  · rw [hpc] at hc hv
    cases hc
    cases hv
    by_cases hdw : d = w
    · exact .inl (hdw ▸ List.mem_cons_self)
    · have hlt : m.getTimeout w < m.getTimeout d :=
        lt_of_le_of_ne hvd fun e => hdw (h.ordered.sorted.eq_of_key hmem hw e.symm)
      -- A due watcher after the iterator is at or after the next one, whose key is the least above.
      right
      cases hafter : after w m.timerSet with
      | none => exact absurd hlt (not_lt.mpr (h.ordered.sorted.after_eq_none hw hafter d hmem))
      | some u =>
        obtain ⟨-, -, hmin⟩ := h.ordered.sorted.after_eq_some hw hafter
        exact ⟨c, u, rfl, rfl, h.ordered.mem_erase.mpr ⟨hdw, hmem⟩, hmin d hmem hlt, hdc⟩

/-- A pass that starts finds every due watcher at or after the first one. -/
theorem Ordered.complete_enter {m : TimerEventManager} (h : Ordered m) : Complete m.enter := by
  intro d hd
  obtain ⟨hmem, hle⟩ := List.mem_filter.mp hd
  obtain ⟨w, hw⟩ := Option.isSome_iff_exists.mp (List.isSome_head?.mpr (List.ne_nil_of_mem hmem))
  exact .inr ⟨m.loopTime, w, rfl, hw, hmem, h.sorted.head_le hw d hmem, of_decide_eq_true hle⟩

/-- A pass that stops has handled every due watcher. -/
theorem Complete.stop {m : TimerEventManager} (h : Complete m)
    (hstop : ∀ c v, m.pc.time = some c → m.pc.iterator = some v → c < m.getTimeout v) :
    Complete { m with pc := .outside } := by
  intro d hd
  rcases h d hd with hh | ⟨c, v, hc, hv, -, hvd, hdc⟩
  · exact .inl hh
  · exact absurd (hstop c v hc hv) (not_lt.mpr (le_trans hvd hdc))

/-- A step of different deadlines leaves the timers in order exactly when its rearm fits. -/
theorem DeadlineInv.step {m m' : TimerEventManager} {op : Op} (h : DeadlineInv m)
    (hd : DifferentDeadlines m op) (hs : Stepped m op m') :
    (TimerOrder m' ↔ RearmFits m op) ∧ (RearmFits m op → DeadlineInv m') := by
  -- It is enough that a fitting step keeps the invariant and that a step in order has fitted.
  suffices hinv : (RearmFits m op → Complete m' ∧ HandledFresh m') ∧
      (TimerOrder m' → RearmFits m op) by
    have hkeep : RearmFits m op → DeadlineInv m' := fun hf =>
      ⟨h.ordered.step hf hs, (hinv.1 hf).1, (hinv.1 hf).2⟩
    exact ⟨⟨hinv.2, fun hf => (hkeep hf).timerOrder⟩, hkeep⟩
  cases hs with
  | updateTime now =>
    exact ⟨fun _ => ⟨h.complete, h.fresh⟩, fun _ => m.rearmFits_of_ne (by simp)⟩
  | create w timer hpc hw =>
    refine ⟨fun _ => ⟨?_, ?_⟩, fun _ => m.rearmFits_of_ne (by simp)⟩
    · exact h.complete.of_grow rfl rfl rfl rfl h.ordered.iterator fun v hv =>
        ⟨KeyedSet.mem_emplace_of_mem hv, h.ordered.getTimeout_create timer hw hv⟩
    · -- A handler creates a timer: its deadline is not that of the watcher being handled.
      intro c it u hu v hv
      obtain ⟨hua, -⟩ := h.ordered.handling c it u hu
      have huw : u ≠ w := fun e => hw (e ▸ hua)
      change (m.setTimer w timer).getTimeout v ≠ (m.setTimer w timer).getTimeout u
      rw [getTimeout_setTimer, Function.update_of_ne huw]
      rcases mem_create hv with rfl | hv
      · rw [Function.update_self]
        exact (hd.2 c it u hu).symm
      · have hvw : v ≠ w := fun e => hw (e ▸ h.ordered.set_added v hv)
        rw [Function.update_of_ne hvw]
        exact h.fresh c it u hu v hv
  | cancel w hpc hw =>
    refine ⟨fun _ => ⟨fun d hd => ?_, ?_⟩, fun _ => m.rearmFits_of_ne (by simp)⟩
    · exact .inl (h.timerOrder.complete hpc d hd)
    · intro c it u hu
      exact absurd (hpc.symm.trans hu) (by simp)
  | process hpc =>
    exact ⟨fun _ => ⟨h.ordered.complete_enter, fun _ _ _ hu => (nomatch hu)⟩,
      fun _ => m.rearmFits_of_ne (by simp)⟩
  | visitEnd c hpc =>
    refine ⟨fun _ => ⟨h.complete.stop fun c' v _ hv => ?_, fun _ _ _ hu => (nomatch hu)⟩,
      fun _ => m.rearmFits_of_ne (by simp)⟩
    rw [hpc] at hv
    cases hv
  | visitLater c w hpc hlt =>
    refine ⟨fun _ => ⟨h.complete.stop fun c' v hc hv => ?_, fun _ _ _ hu => (nomatch hu)⟩,
      fun _ => m.rearmFits_of_ne (by simp)⟩
    rw [hpc] at hc hv
    cases hc
    cases hv
    exact hlt
  | visitDue c w hpc hle =>
    have hw : w ∈ m.timerSet := h.ordered.iterator w (by rw [hpc]; rfl)
    refine ⟨fun _ => ⟨h.complete_visitDue hpc, ?_⟩, fun _ => m.rearmFits_of_ne (by simp)⟩
    intro c' it u hu v hv heq
    cases hu
    -- The watcher has left the set, and with it the only one of its key.
    obtain ⟨hvw, hvm⟩ := h.ordered.mem_erase.mp hv
    exact hvw (h.ordered.sorted.eq_of_key hvm hw heq)
  | returned c it w hpc hcls =>
    have hcomplete : Complete { m with pc := .head c it } :=
      h.complete.of_grow rfl rfl (by rw [hpc]; rfl) (by rw [hpc]; rfl) h.ordered.iterator
        fun v hv => ⟨hv, rfl⟩
    refine ⟨fun _ => ⟨hcomplete, fun _ _ _ hu => (nomatch hu)⟩, fun _ c' it' w' i r _ hpc' hcls' hr => ?_⟩
    rw [hpc] at hpc'
    cases hpc'
    exact absurd (hcls i r hcls') hr
  | rearmed c it w i r r' hpc hcls hr =>
    have hws : w ∉ m.timerSet := (h.ordered.handling c it w hpc).2
    refine ⟨fun _ => ⟨?_, fun _ _ _ hu => (nomatch hu)⟩, fun hto c' it' w' i' r'' _ hpc' hcls' _ => ?_⟩
    · refine h.complete.of_grow rfl rfl (by rw [hpc]; rfl) (by rw [hpc]; rfl) h.ordered.iterator
        fun v hv => ⟨KeyedSet.mem_emplace_of_mem hv, ?_⟩
      -- The others keep their keys, so the pass still finds those that are due.
      have hvw : v ≠ w := fun e => hws (e ▸ hv)
      change ((m.add w).setTimer w _).getTimeout v = m.getTimeout v
      rw [getTimeout_setTimer, Function.update_of_ne hvw]
      rfl
    · rw [hpc] at hpc'
      cases hpc'
      rw [hcls] at hcls'
      cases hcls'
      exact h.fits_of_sorted ⟨m.loopTime + i, .repeating i r'⟩ hpc (hd c it w i r hpc hcls hr)
        hto.sorted

/-- In every run of pairwise different deadlines, the timers are in order in every state, if and only
if every rearm of the run fits: the watcher's new deadline, one interval after the loop time, lies on
the same side of every pending deadline as the elapsed one. -/
theorem timerOrder_iff_rearmFits (loopTime : ℤ) (ops : List Op)
    (hops : Machine.Meets step DifferentDeadlines (initial loopTime) ops) :
    Machine.Always step TimerOrder (initial loopTime) ops ↔
      Machine.Meets step RearmFits (initial loopTime) ops :=
  Machine.always_iff_meets (fun _ h => h.timerOrder)
    (fun _ _ _ h hd hs => h.step hd (stepped_of_step hs)) (deadlineInv_initial loopTime) hops

/-- The rearm of a repeating watcher that is the last of the set fits: a run of `runEvery` every
`200ms` with a `runAfter` of `100ms` is in order until the repeating watcher has been rearmed. -/
theorem timerOrder_last_rearm :
    Machine.Always step TimerOrder (initial 0)
      [(initial 0).runEvery 0 200000 Infinite, (initial 0).runAfter 1 100000, .updateTime 200000,
        .process, .visit, .handlerReturned, .visit, .handlerReturned] := by
  refine (timerOrder_iff_rearmFits 0 _ ?_).mpr ?_
  · refine .cons rfl ⟨by decide, fun _ _ _ h => (nomatch h)⟩ <|
      .cons rfl ⟨by decide, fun _ _ _ h => (nomatch h)⟩ <| .cons rfl trivial <|
      .cons rfl trivial <| .cons rfl trivial <| .cons rfl ?_ <| .cons rfl trivial <|
      .cons rfl ?_ trivial
    · rintro c it w i r ⟨⟩ hcls - v hv
      cases hcls
    · rintro c it w i r ⟨⟩ hcls - v hv
      cases hv
  · have huser {m : TimerEventManager} {op : Op} (h : op ≠ .handlerReturned) := m.rearmFits_of_ne h
    refine .cons rfl (huser (by decide)) <| .cons rfl (huser (by decide)) <|
      .cons rfl (huser (by decide)) <| .cons rfl (huser (by decide)) <|
      .cons rfl (huser (by decide)) <| .cons rfl ?_ <| .cons rfl (huser (by decide)) <|
      .cons rfl ?_ trivial
    · rintro c it w i r - ⟨⟩ hcls
      cases hcls
    · rintro c it w i r - ⟨⟩ hcls - v hv
      cases hv

/-- A `runEvery` of `200ms` beside a `runAfter` of `300ms`: at `200ms` the repeating watcher goes back
in front of the other one, with `400ms` as its timeout. -/
theorem timerOrder_fails_on_rearm :
    ¬ ∀ (loopTime : ℤ) (ops : List Op),
      Machine.Meets step DifferentDeadlines (initial loopTime) ops →
      Machine.Always step TimerOrder (initial loopTime) ops := by
  intro h
  have hrun := h 0
    [(initial 0).runEvery 0 200000 Infinite, (initial 0).runAfter 1 300000, .updateTime 200000,
      .process, .visit, .handlerReturned] ?_
  · exact absurd (hrun.of_run rfl).sorted (by decide)
  · refine .cons rfl ⟨by decide, fun _ _ _ h => (nomatch h)⟩ <|
      .cons rfl ⟨by decide, fun _ _ _ h => (nomatch h)⟩ <| .cons rfl trivial <|
      .cons rfl trivial <| .cons rfl trivial <| .cons rfl ?_ trivial
    rintro c it w i r ⟨⟩ hcls -
    cases hcls
    decide

end Hulatang.TimerEventManager
