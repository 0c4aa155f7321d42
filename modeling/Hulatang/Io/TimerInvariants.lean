import Hulatang.Io.TimerEventManager

/-!
# What a run of the timer manager keeps

`Stepped` lists what one step of the manager can do; every invariant below is a case analysis over
it. `Ordered` is the invariant of the set: it is sorted by the watchers' current timeouts, and the
iterator of a pass points into it. Every step keeps it except a rearm that moves a timeout past
another pending one, which `RearmFits` excludes.

With one-shot watchers the set of pending watchers is the set of those added less the handled and the
cancelled ones, exactly when no two watchers meet in one key (`DistinctTimeouts`).
-/

namespace Hulatang.TimerEventManager

open KeyedSet (Sorted Fits emplace eraseKey after)

/-! ## Steps -/

/-- What one step can do, guards included. -/
inductive Stepped (m : TimerEventManager) : Op → TimerEventManager → Prop
  | updateTime (now : ℤ) : Stepped m (.updateTime now) { m with loopTime := now }
  | create (w : ℕ) (timer : TimerEventWatcher) (hpc : ∀ c it, m.pc ≠ .head c it)
      (hw : w ∉ m.added) : Stepped m (.create w timer) (m.create w timer)
  | cancel (w : ℕ) (hpc : m.pc = .outside) (hw : w ∈ m.added) : Stepped m (.cancel w) (m.cancel w)
  | process (hpc : m.pc = .outside) : Stepped m .process m.enter
  | visitEnd (c : ℤ) (hpc : m.pc = .head c none) : Stepped m .visit { m with pc := .outside }
  | visitLater (c : ℤ) (w : ℕ) (hpc : m.pc = .head c (some w)) (hlt : c < m.getTimeout w) :
      Stepped m .visit { m with pc := .outside }
  | visitDue (c : ℤ) (w : ℕ) (hpc : m.pc = .head c (some w)) (hle : m.getTimeout w ≤ c) :
      Stepped m .visit
        { m with
          timerSet := m.timerSet.erase w
          pc := .handling c (after w m.timerSet) w
          handled := w :: m.handled
          passHandled := w :: m.passHandled }
  | returned (c : ℤ) (it : Option ℕ) (w : ℕ) (hpc : m.pc = .handling c it w)
      (hcls : ∀ i r, (m.watcher w).cls = .repeating i r → r = 0) :
      Stepped m .handlerReturned { m with pc := .head c it }
  | rearmed (c : ℤ) (it : Option ℕ) (w : ℕ) (i : ℤ) (r r' : ℕ) (hpc : m.pc = .handling c it w)
      (hcls : (m.watcher w).cls = .repeating i r) (hr : r ≠ 0) :
      Stepped m .handlerReturned
        { (m.add w).setTimer w ⟨m.loopTime + i, .repeating i r'⟩ with pc := .head c it }

theorem stepped_of_step {m m' : TimerEventManager} {op : Op} (h : m.step op = some m') :
    Stepped m op m' := by
  cases op with
  | updateTime now =>
    cases h
    exact .updateTime now
  | create w timer =>
    unfold step at h
    dsimp only at h
    split at h
    · cases h
    · rename_i hpc
      split_ifs at h with hw
      cases h
      exact .create w timer hpc hw
  | cancel w =>
    unfold step at h
    dsimp only at h
    split_ifs at h with hw
    cases h
    exact .cancel w hw.1 hw.2
  | process =>
    unfold step at h
    dsimp only at h
    split_ifs at h with hpc
    cases h
    exact .process hpc
  | visit =>
    unfold step at h
    dsimp only at h
    split at h
    · rename_i c it hpc
      cases h
      cases it with
      | none => exact .visitEnd c hpc
      | some w =>
        unfold visit
        dsimp only
        split_ifs with hle
        · exact .visitDue c w hpc hle
        · exact .visitLater c w hpc (not_le.mp hle)
    · cases h
  | handlerReturned =>
    unfold step at h
    dsimp only at h
    split at h
    · rename_i c it w hpc
      cases h
      unfold rearm
      split
      · rename_i hcls
        exact .returned c it w hpc fun i r hr => by rw [hcls] at hr; cases hr
      · rename_i i r hcls
        by_cases hr : r = 0
        · rw [if_pos hr]
          exact .returned c it w hpc fun i' r' hr' => by rw [hcls] at hr'; cases hr'; exact hr
        · rw [if_neg hr]
          exact .rearmed c it w i r _ hpc hcls hr
    · cases h

/-! ## The set stays ordered -/

/-- Writing a watcher changes the keys at its own pointer only. -/
theorem getTimeout_setTimer (m : TimerEventManager) (w : ℕ) (timer : TimerEventWatcher) :
    (m.setTimer w timer).getTimeout = Function.update m.getTimeout w timer.timeout := by
  funext v
  by_cases hv : v = w
  · subst hv
    simp [getTimeout, setTimer]
  · simp [getTimeout, setTimer, hv]

/-- The set is sorted by the current timeouts, its watchers have been created, and a running pass
stands at one of them or at the end. -/
structure Ordered (m : TimerEventManager) : Prop where
  sorted : Sorted m.getTimeout m.timerSet
  set_added : ∀ w ∈ m.timerSet, w ∈ m.added
  handled_added : ∀ w ∈ m.handled, w ∈ m.added
  cancelled_added : ∀ w ∈ m.cancelled, w ∈ m.added
  iterator : ∀ w, m.pc.iterator = some w → w ∈ m.timerSet
  handling : ∀ c it w, m.pc = .handling c it w → w ∈ m.added ∧ w ∉ m.timerSet

/-- The steps that keep the set in order: a rearm moves a timeout to a value that fits the watcher's
place in the set. -/
def RearmFits (m : TimerEventManager) (op : Op) : Prop :=
  ∀ c it w i r, op = .handlerReturned → m.pc = .handling c it w →
    (m.watcher w).cls = .repeating i r → r ≠ 0 → Fits m.getTimeout w (m.loopTime + i) m.timerSet

/-- Only the return of a handler rearms. -/
theorem rearmFits_of_ne (m : TimerEventManager) {op : Op} (h : op ≠ .handlerReturned) :
    RearmFits m op :=
  fun _ _ _ _ _ hop => absurd hop h

theorem ordered_initial (loopTime : ℤ) : Ordered (initial loopTime) where
  sorted := List.Pairwise.nil
  set_added := by simp [initial]
  handled_added := by simp [initial]
  cancelled_added := by simp [initial]
  iterator := by simp [initial, ProcessPc.iterator]
  handling := by simp [initial]

/-- The watchers of the set keep their keys when a new watcher is created. -/
theorem Ordered.getTimeout_create {m : TimerEventManager} (h : Ordered m) {w v : ℕ}
    (timer : TimerEventWatcher) (hw : w ∉ m.added) (hv : v ∈ m.timerSet) :
    (m.create w timer).getTimeout v = m.getTimeout v := by
  have hvw : v ≠ w := fun e => hw (e ▸ h.set_added v hv)
  change (m.setTimer w timer).getTimeout v = m.getTimeout v
  rw [getTimeout_setTimer, Function.update_of_ne hvw]

/-- What is in the set after a `create` was there before, or is the new watcher. -/
theorem mem_create {m : TimerEventManager} {w v : ℕ} {timer : TimerEventWatcher}
    (hv : v ∈ (m.create w timer).timerSet) : v = w ∨ v ∈ m.timerSet :=
  KeyedSet.mem_of_mem_emplace hv

theorem Ordered.create {m : TimerEventManager} (h : Ordered m) {w : ℕ} (timer : TimerEventWatcher)
    (hw : w ∉ m.added) : Ordered (m.create w timer) where
  sorted := KeyedSet.sorted_emplace <|
    (KeyedSet.sorted_congr fun _ hv => h.getTimeout_create timer hw hv).mpr h.sorted
  set_added v hv := by
    rcases mem_create hv with rfl | hv
    · exact List.mem_cons_self
    · exact List.mem_cons_of_mem w (h.set_added v hv)
  handled_added v hv := List.mem_cons_of_mem w (h.handled_added v hv)
  cancelled_added v hv := List.mem_cons_of_mem w (h.cancelled_added v hv)
  iterator v hv := KeyedSet.mem_emplace_of_mem (h.iterator v hv)
  handling c it v hv := by
    obtain ⟨hva, hvs⟩ := h.handling c it v hv
    refine ⟨List.mem_cons_of_mem w hva, fun hmem => ?_⟩
    rcases mem_create hmem with rfl | hmem
    · exact hw hva
    · exact hvs hmem

/-- The watcher that a due visit erases is out of the set, and the others stay. -/
theorem Ordered.mem_erase {m : TimerEventManager} (h : Ordered m) {w v : ℕ} :
    v ∈ m.timerSet.erase w ↔ v ≠ w ∧ v ∈ m.timerSet :=
  KeyedSet.Sorted.mem_erase h.sorted

/-- Every step whose rearm fits keeps the set in order. -/
theorem Ordered.step {m m' : TimerEventManager} {op : Op} (h : Ordered m) (hf : RearmFits m op)
    (hs : Stepped m op m') : Ordered m' := by
  cases hs with
  | updateTime now => exact { h with }
  | create w timer hpc hw => exact h.create timer hw
  | cancel w hpc hw =>
    refine ⟨KeyedSet.sorted_eraseKey h.sorted, fun v hv => ?_, h.handled_added, fun v hv => ?_,
      fun v hv => ?_, fun c it v hv => ?_⟩
    · exact h.set_added v (KeyedSet.mem_eraseKey.mp hv).1
    · rcases List.mem_cons.mp hv with rfl | hv
      · exact hw
      · exact h.cancelled_added v hv
    · change m.pc.iterator = some v at hv
      rw [hpc] at hv
      cases hv
    · exact absurd (hpc.symm.trans hv) (by simp)
  | process hpc =>
    exact { h with
      iterator := fun v hv => List.mem_of_mem_head? hv
      handling := fun _ _ _ hv => (nomatch hv) }
  | visitEnd c hpc | visitLater c w hpc hlt =>
    exact { h with iterator := fun _ hv => (nomatch hv), handling := fun _ _ _ hv => (nomatch hv) }
  | visitDue c w hpc hle =>
    have hw : w ∈ m.timerSet := h.iterator w (by rw [hpc]; rfl)
    refine ⟨KeyedSet.sorted_erase h.sorted, fun v hv => ?_, fun v hv => ?_, h.cancelled_added,
      fun v hv => ?_, fun c' it v hv => ?_⟩
    · exact h.set_added v (h.mem_erase.mp hv).2
    · rcases List.mem_cons.mp hv with rfl | hv
      · exact h.set_added _ hw
      · exact h.handled_added v hv
    · -- The iterator has moved past the erased watcher.
      obtain ⟨hmem, hlt, -⟩ := h.sorted.after_eq_some hw hv
      exact h.mem_erase.mpr ⟨fun e => ne_of_lt hlt (by rw [e]), hmem⟩
    · cases hv
      exact ⟨h.set_added _ hw, fun hmem => (h.mem_erase.mp hmem).1 rfl⟩
  | returned c it w hpc hcls =>
    refine { h with
      iterator := fun v hv => h.iterator v ?_
      handling := fun _ _ _ hv => (nomatch hv) }
    rw [hpc]
    exact hv
  | rearmed c it w i r r' hpc hcls hr =>
    obtain ⟨hwa, hws⟩ := h.handling c it w hpc
    refine ⟨?_, fun v hv => ?_, h.3, h.4, fun v hv => ?_, fun _ _ _ hv => (nomatch hv)⟩
    · -- The set is ordered under the old key, and the new one fits the place it gave the watcher.
      have hfit := hf c it w i r rfl hpc hcls hr
      change Sorted ((m.add w).setTimer w _).getTimeout (emplace m.getTimeout w m.timerSet)
      rw [getTimeout_setTimer]
      refine KeyedSet.sorted_update (KeyedSet.sorted_emplace h.sorted) fun v hv hvw => ?_
      exact hfit v ((KeyedSet.mem_of_mem_emplace hv).resolve_left hvw) hvw
    · rcases KeyedSet.mem_of_mem_emplace hv with rfl | hv
      · exact hwa
      · exact h.set_added v hv
    · exact KeyedSet.mem_emplace_of_mem (h.iterator v (by rw [hpc]; exact hv))

/-! ## One-shot watchers -/

/-- An operation on one-shot watchers. -/
def Op.OneShot : Op → Prop
  | .create _ timer => timer.cls = .oneShot
  | _ => True

instance : DecidablePred Op.OneShot
  | .create _ timer => inferInstanceAs (Decidable (timer.cls = .oneShot))
  | .updateTime _ | .cancel _ | .process | .visit | .handlerReturned =>
    inferInstanceAs (Decidable True)

/-- The watchers are one-shot, and in order. -/
structure OneShots (m : TimerEventManager) : Prop where
  ordered : Ordered m
  oneShot : ∀ w ∈ m.added, (m.watcher w).cls = .oneShot

theorem oneShots_initial (loopTime : ℤ) : OneShots (initial loopTime) where
  ordered := ordered_initial loopTime
  oneShot := by simp [initial]

/-- A one-shot watcher is never rearmed, so no key moves. -/
theorem OneShots.rearmFits {m : TimerEventManager} (h : OneShots m) (op : Op) : RearmFits m op := by
  intro c it w i r _ hpc hcls _
  rw [h.oneShot w (h.ordered.handling c it w hpc).1] at hcls
  cases hcls

/-- They stay so. -/
theorem OneShots.step {m m' : TimerEventManager} {op : Op} (h : OneShots m) (hs : Stepped m op m')
    (hop : op.OneShot) : OneShots m' := by
  refine ⟨h.ordered.step (h.rearmFits op) hs, ?_⟩
  cases hs with
  | create w timer hpc hw =>
    intro v hv
    change (Function.update m.watcher w timer v).cls = .oneShot
    by_cases hvw : v = w
    · rw [hvw, Function.update_self]
      exact hop
    · rw [Function.update_of_ne hvw]
      exact h.oneShot v ((List.mem_cons.mp hv).resolve_left hvw)
  | updateTime | cancel | process | visitEnd | visitLater | visitDue | returned => exact h.oneShot
  | rearmed c it w i r r' hpc hcls hr =>
    rw [h.oneShot w (h.ordered.handling c it w hpc).1] at hcls
    cases hcls

/-! ## Conservation of one-shot timers -/

/-- The pending watchers are those added, less the handled and the cancelled ones. -/
def Conserves (m : TimerEventManager) : Prop :=
  ∀ w, w ∈ m.timerSet ↔ w ∈ m.added ∧ w ∉ m.handled ∧ w ∉ m.cancelled

/-- No two watchers meet in one key: a new watcher's timeout differs from those pending, and no
pending watcher but the cancelled one has its timeout. -/
def DistinctTimeouts (m : TimerEventManager) : Op → Prop
  | .create _ timer => ∀ v ∈ m.timerSet, m.getTimeout v ≠ timer.timeout
  | .cancel w => ∀ v ∈ m.timerSet, m.getTimeout v = m.getTimeout w → v = w
  | _ => True

instance (m : TimerEventManager) : DecidablePred (DistinctTimeouts m)
  | .create _ timer => inferInstanceAs (Decidable (∀ v ∈ m.timerSet, m.getTimeout v ≠ timer.timeout))
  | .cancel w =>
    inferInstanceAs (Decidable (∀ v ∈ m.timerSet, m.getTimeout v = m.getTimeout w → v = w))
  | .updateTime _ | .process | .visit | .handlerReturned => inferInstanceAs (Decidable True)

/-- `create` conserves exactly when the new watcher's key is free: otherwise `emplace` drops it. -/
theorem conserves_create {m : TimerEventManager} (ho : Ordered m) (hc : Conserves m) {w : ℕ}
    {timer : TimerEventWatcher} (hw : w ∉ m.added) :
    Conserves (m.create w timer) ↔ ∀ v ∈ m.timerSet, m.getTimeout v ≠ timer.timeout := by
  have hkey : (m.create w timer).getTimeout w = timer.timeout := by
    change (m.setTimer w timer).getTimeout w = timer.timeout
    rw [getTimeout_setTimer, Function.update_self]
  have hws : w ∉ m.timerSet := fun h => hw (ho.set_added w h)
  have hnew : w ∉ m.handled ∧ w ∉ m.cancelled :=
    ⟨fun h => hw (ho.handled_added w h), fun h => hw (ho.cancelled_added w h)⟩
  have hsorted : Sorted (m.create w timer).getTimeout m.timerSet :=
    (KeyedSet.sorted_congr fun _ hv => ho.getTimeout_create timer hw hv).mpr ho.sorted
  constructor
  · -- A pending watcher of the same timeout makes `emplace` drop the new one.
    intro h v hv heq
    have hdrop : (m.create w timer).timerSet = m.timerSet :=
      KeyedSet.emplace_of_key_mem hsorted hv
        ((ho.getTimeout_create timer hw hv).trans (heq.trans hkey.symm))
    have hmem : w ∈ (m.create w timer).timerSet :=
      (h w).mpr ⟨List.mem_cons_self, hnew⟩
    rw [hdrop] at hmem
    exact hws hmem
  · intro hfree v
    -- With a free key the watcher goes in, and the others keep their keys.
    have hfresh : ∀ u ∈ m.timerSet,
        (m.create w timer).getTimeout u ≠ (m.create w timer).getTimeout w := by
      intro u hu
      rw [ho.getTimeout_create timer hw hu, hkey]
      exact hfree u hu
    refine (KeyedSet.mem_emplace_of_fresh hfresh).trans ?_
    change v = w ∨ v ∈ m.timerSet ↔ v ∈ w :: m.added ∧ v ∉ m.handled ∧ v ∉ m.cancelled
    rw [List.mem_cons, hc v]
    constructor
    · rintro (rfl | ⟨ha, hn⟩)
      · exact ⟨.inl rfl, hnew⟩
      · exact ⟨.inr ha, hn⟩
    · rintro ⟨rfl | ha, hn⟩
      · exact .inl rfl
      · exact .inr ⟨ha, hn⟩

/-- `cancel` conserves exactly when no other pending watcher has the key: otherwise it goes too. -/
theorem conserves_cancel {m : TimerEventManager} (hc : Conserves m) {w : ℕ} :
    Conserves (m.cancel w) ↔ ∀ v ∈ m.timerSet, m.getTimeout v = m.getTimeout w → v = w := by
  have hmem : ∀ v, v ∈ (m.cancel w).timerSet ↔
      v ∈ m.timerSet ∧ m.getTimeout v ≠ m.getTimeout w := fun v => KeyedSet.mem_eraseKey
  constructor
  · intro h v hv heq
    -- The other watcher of that key would go as well, without having been cancelled.
    by_contra hne
    obtain ⟨ha, hh, hcv⟩ := (hc v).mp hv
    have hstay : v ∈ (m.cancel w).timerSet := by
      refine (h v).mpr ⟨ha, hh, fun hmem => ?_⟩
      rcases List.mem_cons.mp hmem with heq | hmem
      · exact hne heq
      · exact hcv hmem
    exact ((hmem v).mp hstay).2 heq
  · intro honly v
    rw [hmem v]
    change _ ↔ v ∈ m.added ∧ v ∉ m.handled ∧ v ∉ w :: m.cancelled
    rw [List.mem_cons, not_or, hc v]
    constructor
    · rintro ⟨⟨ha, hh, hcv⟩, hne⟩
      exact ⟨ha, hh, fun e => hne (by rw [e]), hcv⟩
    · rintro ⟨ha, hh, hvw, hcv⟩
      exact ⟨⟨ha, hh, hcv⟩, fun heq => hvw (honly v ((hc v).mpr ⟨ha, hh, hcv⟩) heq)⟩

/-- The invariant of a run of one-shot watchers that has conserved them so far. -/
structure OneShotInv (m : TimerEventManager) : Prop where
  ordered : Ordered m
  conserves : Conserves m
  oneShot : ∀ w ∈ m.added, (m.watcher w).cls = .oneShot

theorem oneShotInv_initial (loopTime : ℤ) : OneShotInv (initial loopTime) where
  ordered := ordered_initial loopTime
  conserves := by simp [Conserves, initial]
  oneShot := by simp [initial]

/-- A step on one-shot watchers conserves them exactly when it meets `DistinctTimeouts`. -/
theorem OneShotInv.step {m m' : TimerEventManager} {op : Op} (h : OneShotInv m) (hop : op.OneShot)
    (hs : Stepped m op m') :
    (Conserves m' ↔ DistinctTimeouts m op) ∧ (DistinctTimeouts m op → OneShotInv m') := by
  obtain ⟨ho', hone⟩ := OneShots.step ⟨h.ordered, h.oneShot⟩ hs hop
  cases hs with
  | create w timer hpc hw =>
    exact ⟨conserves_create h.ordered h.conserves hw, fun hd =>
      ⟨ho', (conserves_create h.ordered h.conserves hw).mpr hd, hone⟩⟩
  | cancel w hpc hw =>
    exact ⟨conserves_cancel h.conserves, fun hd =>
      ⟨ho', (conserves_cancel h.conserves).mpr hd, hone⟩⟩
  | updateTime | process | visitEnd | visitLater | returned =>
    exact ⟨⟨fun _ => trivial, fun _ => h.conserves⟩, fun _ => ⟨ho', h.conserves, hone⟩⟩
  | visitDue c w hpc hle =>
    have hw : w ∈ m.timerSet := h.ordered.iterator w (by rw [hpc]; rfl)
    have hcons : Conserves
        { m with
          timerSet := m.timerSet.erase w
          pc := .handling c (after w m.timerSet) w
          handled := w :: m.handled
          passHandled := w :: m.passHandled } := by
      intro v
      change v ∈ m.timerSet.erase w ↔ v ∈ m.added ∧ v ∉ w :: m.handled ∧ v ∉ m.cancelled
      rw [h.ordered.mem_erase, h.conserves v, List.mem_cons, not_or]
      constructor
      · rintro ⟨hvw, ha, hh, hcv⟩
        exact ⟨ha, ⟨hvw, hh⟩, hcv⟩
      · rintro ⟨ha, ⟨hvw, hh⟩, hcv⟩
        exact ⟨hvw, ha, hh, hcv⟩
    exact ⟨⟨fun _ => trivial, fun _ => hcons⟩, fun _ => ⟨ho', hcons, hone⟩⟩
  | rearmed c it w i r r' hpc hcls hr =>
    rw [h.oneShot w (h.ordered.handling c it w hpc).1] at hcls
    cases hcls

/-- In every run on one-shot watchers, the pending watchers are in every state those added less those
handled and those cancelled, if and only if every `create` and `cancel` of the run meets
`DistinctTimeouts`. -/
theorem conserves_iff_distinctTimeouts (loopTime : ℤ) (ops : List Op)
    (hops : ∀ op ∈ ops, op.OneShot) :
    Machine.Always step Conserves (initial loopTime) ops ↔
      Machine.Meets step DistinctTimeouts (initial loopTime) ops :=
  Machine.always_iff_meets (fun _ h => h.conserves)
    (fun _ _ _ h hop hs => h.step hop (stepped_of_step hs)) (oneShotInv_initial loopTime)
    (Machine.meets_of_labels hops)

/-- Two one-shot watchers of different timeouts are conserved through a pass that handles one of
them. -/
theorem conserves_two_timeouts :
    Machine.Always step Conserves (initial 0)
      [(initial 0).runAfter 0 5, (initial 0).runAfter 1 7, .updateTime 6, .process, .visit,
        .handlerReturned, .visit] :=
  (conserves_iff_distinctTimeouts 0 _ (by decide)).mpr (by decide)

/-- Two one-shot watchers created at one loop time with one timeout: the second is added, neither
handled nor cancelled, and not pending. -/
theorem conserves_drops_equal_timeout :
    ¬ ∀ (loopTime : ℤ) (ops : List Op), (∀ op ∈ ops, op.OneShot) →
      Machine.Always step Conserves (initial loopTime) ops := by
  intro h
  have hrun := h 0 [(initial 0).runAfter 0 5, (initial 0).runAfter 1 5] (by decide)
  have hpending := (hrun.of_run rfl 1).mpr
  exact absurd (hpending (by decide)) (by decide)

end Hulatang.TimerEventManager
