import Hulatang.Io.TimerInvariants

/-!
# How early and how often a timer fires

A repeating watcher adds itself before it moves its timeout, which can leave the set out of order, and
then nothing is known of where `emplace` puts the next watcher. So the runs here are those in which it
puts each one anywhere or drops it (`stepPlaced`); those of `step` are among them (`exists_run_placed`).

What remains is that a watcher is in the set at most once and leaves it before it is handled, that the
handled one was due, and an account of each watcher since its creation: how often it has been handled,
whether it is pending, and how often it will still rearm.
-/

namespace Hulatang.TimerEventManager

open KeyedSet (place after)

/-- `add`, wherever the set puts the watcher. -/
def addAt (m : TimerEventManager) (p : Option ℕ) (w : ℕ) : TimerEventManager :=
  { m with timerSet := place p w m.timerSet }

/-- `create`, likewise. -/
def createAt (m : TimerEventManager) (p : Option ℕ) (w : ℕ) (timer : TimerEventWatcher) :
    TimerEventManager :=
  { (m.setTimer w timer).addAt p w with added := w :: m.added }

/-- `rearm`, likewise. -/
def rearmAt (m : TimerEventManager) (p : Option ℕ) (timer : ℕ) : TimerEventManager :=
  match (m.watcher timer).cls with
  | .oneShot => m
  | .repeating interval repeats =>
    if repeats = 0 then m
    else
      let repeats' := if repeats = Infinite then repeats else repeats - 1
      (m.addAt p timer).setTimer timer ⟨m.loopTime + interval, .repeating interval repeats'⟩

/-- One step, in which the set puts a watcher that is added at the given place, or drops it. -/
def stepPlaced (m : TimerEventManager) : Op × Option ℕ → Option TimerEventManager
  | (.create w timer, p) =>
    match m.pc with
    | .head _ _ => none
    | _ => if w ∈ m.added then none else some (m.createAt p w timer)
  | (.handlerReturned, p) =>
    match m.pc with
    | .handling currentTime it timer => some { m.rearmAt p timer with pc := .head currentTime it }
    | _ => none
  | (op, _) => m.step op

theorem exists_addAt (m : TimerEventManager) (w : ℕ) : ∃ p, m.addAt p w = m.add w := by
  obtain ⟨p, hp⟩ : ∃ p, KeyedSet.emplace m.getTimeout w m.timerSet = place p w m.timerSet :=
    KeyedSet.exists_place w m.timerSet
  exact ⟨p, by rw [addAt, add, hp]⟩

/-- Each step of the manager is one of these. -/
theorem exists_stepPlaced {m m' : TimerEventManager} {op : Op} (h : m.step op = some m') :
    ∃ p, m.stepPlaced (op, p) = some m' := by
  cases op with
  | updateTime | cancel | process | visit => exact ⟨none, h⟩
  | create w timer =>
    obtain ⟨p, hp⟩ := (m.setTimer w timer).exists_addAt w
    have hcreate : m.createAt p w timer = m.create w timer := by
      unfold createAt create
      rw [hp]
    refine ⟨p, ?_⟩
    show (match m.pc with
      | .head _ _ => none
      | _ => if w ∈ m.added then none else some (m.createAt p w timer)) = some m'
    rw [hcreate]
    exact h
  | handlerReturned =>
    unfold step at h
    dsimp only at h
    split at h
    case h_2 => cases h
    case h_1 c it w hpc =>
      obtain ⟨p, hp⟩ := m.exists_addAt w
      have hrearm : m.rearmAt p w = m.rearm w := by
        unfold rearmAt rearm
        cases (m.watcher w).cls with
        | oneShot => rfl
        | repeating interval repeats =>
          dsimp only
          rw [hp]
      refine ⟨p, ?_⟩
      unfold stepPlaced
      simp only [hpc, hrearm]
      exact h

/-- And each of its runs. -/
theorem exists_run_placed {m m' : TimerEventManager} {ops : List Op}
    (h : Machine.run step m ops = some m') :
    ∃ labels, labels.map Prod.fst = ops ∧ Machine.run stepPlaced m labels = some m' := by
  induction ops generalizing m with
  | nil => exact ⟨[], rfl, h⟩
  | cons op ops ih =>
    obtain ⟨t, ht, hrun⟩ := Machine.run_cons_eq_some h
    obtain ⟨p, hp⟩ := exists_stepPlaced ht
    obtain ⟨labels, hlabels, hrest⟩ := ih hrun
    refine ⟨(op, p) :: labels, by rw [List.map_cons, hlabels], ?_⟩
    rw [Machine.run_cons, hp]
    exact hrest

/-! ## What one step can do -/

/-- The steps, guards included. -/
inductive Placed (m : TimerEventManager) : Op → TimerEventManager → Prop
  | updateTime (now : ℤ) : Placed m (.updateTime now) { m with loopTime := now }
  | create (p : Option ℕ) (w : ℕ) (timer : TimerEventWatcher) (hw : w ∉ m.added) :
      Placed m (.create w timer) (m.createAt p w timer)
  | cancel (w : ℕ) (hpc : m.pc = .outside) : Placed m (.cancel w) (m.cancel w)
  | process (hpc : m.pc = .outside) : Placed m .process m.enter
  | visitEnd : Placed m .visit { m with pc := .outside }
  | visitDue (c : ℤ) (w : ℕ) (hpc : m.pc = .head c (some w)) (hle : m.getTimeout w ≤ c) :
      Placed m .visit
        { m with
          timerSet := m.timerSet.erase w
          pc := .handling c (after w m.timerSet) w
          handled := w :: m.handled
          passHandled := w :: m.passHandled }
  | returned (c : ℤ) (it : Option ℕ) (w : ℕ) (hpc : m.pc = .handling c it w)
      (hcls : ∀ i r, (m.watcher w).cls = .repeating i r → r = 0) :
      Placed m .handlerReturned { m with pc := .head c it }
  | rearmed (p : Option ℕ) (c : ℤ) (it : Option ℕ) (w : ℕ) (i : ℤ) (r : ℕ) (hpc : m.pc = .handling c it w)
      (hcls : (m.watcher w).cls = .repeating i r) (hr : r ≠ 0) :
      Placed m .handlerReturned
        { (m.addAt p w).setTimer w ⟨m.loopTime + i, .repeating i (if r = Infinite then r else r - 1)⟩ with
          pc := .head c it }

theorem placed_of_stepPlaced {m m' : TimerEventManager} {op : Op} {p : Option ℕ}
    (h : m.stepPlaced (op, p) = some m') : Placed m op m' := by
  cases op with
  | updateTime now =>
    cases h
    exact .updateTime now
  | cancel w =>
    have hstep : m.step (.cancel w) = some m' := h
    cases stepped_of_step hstep with
    | cancel _ hpc hw => exact .cancel w hpc
  | process =>
    have hstep : m.step .process = some m' := h
    cases stepped_of_step hstep with
    | process hpc => exact .process hpc
  | visit =>
    have hstep : m.step .visit = some m' := h
    cases stepped_of_step hstep with
    | visitEnd c hpc => exact .visitEnd
    | visitLater c w hpc hlt => exact .visitEnd
    | visitDue c w hpc hle => exact .visitDue c w hpc hle
  | create w timer =>
    unfold stepPlaced at h
    dsimp only at h
    split at h
    · cases h
    · split_ifs at h with hw
      cases h
      exact .create p w timer hw
  | handlerReturned =>
    unfold stepPlaced at h
    dsimp only at h
    split at h
    case h_2 => cases h
    case h_1 c it w hpc =>
      cases h
      unfold rearmAt
      split
      case h_1 hcls => exact .returned c it w hpc fun i r hr => by rw [hcls] at hr; cases hr
      case h_2 i r hcls =>
        by_cases hr : r = 0
        · rw [if_pos hr]
          exact .returned c it w hpc fun i' r' hr' => by rw [hcls] at hr'; cases hr'; exact hr
        · rw [if_neg hr]
          exact .rearmed p c it w i r hpc hcls hr

/-! ## The set and the watcher that is handled -/

/-- A watcher is in the set at most once, a pass stands at one of the set, and the watcher that is handled
was due and has left the set. -/
structure Tracked (m : TimerEventManager) : Prop where
  nodup : m.timerSet.Nodup
  set_added : ∀ w ∈ m.timerSet, w ∈ m.added
  handled_added : ∀ w ∈ m.handled, w ∈ m.added
  iterator : ∀ w, m.pc.iterator = some w → w ∈ m.timerSet
  handling : ∀ c it w, m.pc = .handling c it w → w ∈ m.added ∧ w ∉ m.timerSet ∧ m.getTimeout w ≤ c

theorem tracked_initial (loopTime : ℤ) : Tracked (initial loopTime) where
  nodup := List.nodup_nil
  set_added := by simp [initial]
  handled_added := by simp [initial]
  iterator := by simp [initial, ProcessPc.iterator]
  handling := by simp [initial]

/-- A watcher keeps its timeout when another is created. -/
theorem getTimeout_createAt {m : TimerEventManager} {w v : ℕ} (p : Option ℕ) (timer : TimerEventWatcher)
    (hv : v ≠ w) : (m.createAt p w timer).getTimeout v = m.getTimeout v := by
  show (m.setTimer w timer).getTimeout v = m.getTimeout v
  rw [getTimeout_setTimer, Function.update_of_ne hv]

/-- What is in the set after a `create` was there before, or is the new watcher. -/
theorem mem_createAt {m : TimerEventManager} {p : Option ℕ} {w v : ℕ} {timer : TimerEventWatcher}
    (hv : v ∈ (m.createAt p w timer).timerSet) : v = w ∨ v ∈ m.timerSet :=
  KeyedSet.mem_of_mem_place hv

theorem Tracked.step {m m' : TimerEventManager} {op : Op} (h : Tracked m) (hs : Placed m op m') :
    Tracked m' := by
  cases hs with
  | updateTime now => exact { h with }
  | create p w timer hw =>
    refine ⟨KeyedSet.nodup_place h.nodup fun hmem => hw (h.set_added w hmem), fun v hv => ?_,
      fun v hv => List.mem_cons_of_mem w (h.handled_added v hv),
      fun v hv => KeyedSet.mem_place_of_mem (h.iterator v hv), fun c it v hv => ?_⟩
    · rcases mem_createAt hv with rfl | hv
      · exact List.mem_cons_self
      · exact List.mem_cons_of_mem w (h.set_added v hv)
    · obtain ⟨hadded, hset, hdue⟩ := h.handling c it v hv
      have hne : v ≠ w := fun e => hw (e ▸ hadded)
      refine ⟨List.mem_cons_of_mem w hadded, fun hmem => ?_, ?_⟩
      · exact (mem_createAt hmem).elim hne hset
      · rw [getTimeout_createAt p timer hne]
        exact hdue
  | cancel w hpc =>
    refine ⟨h.nodup.filter _, fun v hv => h.set_added v (KeyedSet.mem_eraseKey.mp hv).1, h.handled_added,
      fun v hv => ?_, fun c it v hv => ?_⟩
    · change m.pc.iterator = some v at hv
      rw [hpc] at hv
      cases hv
    · exact absurd (hpc.symm.trans hv) (by simp)
  | process hpc =>
    refine ⟨h.nodup, h.set_added, h.handled_added, fun v hv => List.mem_of_mem_head? hv, fun c it v hv => ?_⟩
    cases hv
  | visitEnd => exact ⟨h.nodup, h.set_added, h.handled_added, nofun, nofun⟩
  | visitDue c w hpc hle =>
    have hset : w ∈ m.timerSet := h.iterator w (by rw [hpc]; rfl)
    refine ⟨h.nodup.erase w, fun v hv => h.set_added v (List.mem_of_mem_erase hv), fun v hv => ?_,
      fun v hv => ?_, fun c' it' v hv => ?_⟩
    · rcases List.mem_cons.mp hv with rfl | hv
      · exact h.set_added v hset
      · exact h.handled_added v hv
    · -- The iterator is moved on before the watcher is erased.
      obtain ⟨hne, hmem⟩ := KeyedSet.ne_of_after h.nodup hv
      exact (List.mem_erase_of_ne hne).mpr hmem
    · cases hv
      exact ⟨h.set_added w hset, h.nodup.not_mem_erase, hle⟩
  | returned c it w hpc hcls =>
    refine ⟨h.nodup, h.set_added, h.handled_added, fun v hv => h.iterator v ?_, nofun⟩
    rw [hpc]
    exact hv
  | rearmed p c it w i r hpc hcls hr =>
    obtain ⟨hadded, hset, -⟩ := h.handling c it w hpc
    refine ⟨KeyedSet.nodup_place h.nodup hset, fun v hv => ?_, h.handled_added,
      fun v hv => KeyedSet.mem_place_of_mem (h.iterator v ?_), nofun⟩
    · rcases KeyedSet.mem_of_mem_place hv with rfl | hv
      · exact hadded
      · exact h.set_added v hv
    · rw [hpc]
      exact hv

/-! ## How often a watcher is handled -/

/-- How often a watcher of the class will still rearm. -/
def rearms : WatcherClass → ℕ
  | .oneShot => 0
  | .repeating _ repeats => repeats

/-- The same class, and the same interval. -/
def SameClass : WatcherClass → WatcherClass → Prop
  | .oneShot, .oneShot => True
  | .repeating interval _, .repeating interval' _ => interval = interval'
  | _, _ => False

/-- The account of a watcher that was created with the class `cls`. Each handling is of the first or of a
rearm, and what is in the set is one to come. -/
structure Created (w : ℕ) (cls : WatcherClass) (m : TimerEventManager) : Prop where
  added : w ∈ m.added
  same : SameClass cls (m.watcher w).cls
  left : rearms (m.watcher w).cls ≤ rearms cls
  account : rearms cls < Infinite →
    m.handled.count w + m.timerSet.count w + rearms (m.watcher w).cls ≤ rearms cls + 1

theorem setTimer_watcher (m : TimerEventManager) (w : ℕ) (timer : TimerEventWatcher) :
    (m.setTimer w timer).watcher w = timer := by
  simp [setTimer]

theorem setTimer_watcher_of_ne (m : TimerEventManager) {w v : ℕ} (hv : v ≠ w) (timer : TimerEventWatcher) :
    (m.setTimer w timer).watcher v = m.watcher v := by
  simp [setTimer, hv]

/-- A rearm to come becomes one in the set. -/
theorem Created.rearmed {w : ℕ} {cls : WatcherClass} {m : TimerEventManager} (h : Created w cls m)
    (ht : Tracked m) (p : Option ℕ) {c : ℤ} {it : Option ℕ} {i : ℤ} {r : ℕ}
    (hpc : m.pc = .handling c it w) (hcls : (m.watcher w).cls = .repeating i r) (hr : r ≠ 0) :
    Created w cls
      { (m.addAt p w).setTimer w ⟨m.loopTime + i, .repeating i (if r = Infinite then r else r - 1)⟩ with
        pc := .head c it } := by
  have hset := (ht.handling c it w hpc).2.1
  have hwatcher := (m.addAt p w).setTimer_watcher w
    ⟨m.loopTime + i, .repeating i (if r = Infinite then r else r - 1)⟩
  have hsame := h.same
  have hleft := h.left
  have haccount := h.account
  rw [hcls] at hsame hleft haccount
  change r ≤ rearms cls at hleft
  refine ⟨h.added, ?_, ?_, fun hfin => ?_⟩
  · dsimp only
    rw [hwatcher]
    cases cls with
    | oneShot => exact hsame.elim
    | repeating i' n => exact hsame
  · dsimp only
    rw [hwatcher]
    show (if r = Infinite then r else r - 1) ≤ rearms cls
    split_ifs <;> omega
  · have hr' : r ≠ Infinite := by omega
    have hcount : (place p w m.timerSet).count w ≤ 1 :=
      List.nodup_iff_count.mp (KeyedSet.nodup_place ht.nodup hset) w
    have hzero : m.timerSet.count w = 0 := List.count_eq_zero.mpr hset
    have hbefore := haccount hfin
    rw [hzero] at hbefore
    change m.handled.count w + 0 + r ≤ rearms cls + 1 at hbefore
    dsimp only
    rw [hwatcher, if_neg hr']
    show m.handled.count w + (place p w m.timerSet).count w + (r - 1) ≤ rearms cls + 1
    omega

theorem Created.step {w : ℕ} {cls : WatcherClass} {m m' : TimerEventManager} {op : Op}
    (h : Created w cls m) (ht : Tracked m) (hs : Placed m op m') : Created w cls m' := by
  cases hs with
  | updateTime | process | visitEnd | returned => exact ⟨h.added, h.same, h.left, h.account⟩
  | create p v timer hv =>
    have hne : w ≠ v := fun e => hv (e ▸ h.added)
    have hwatcher : (m.createAt p v timer).watcher w = m.watcher w := m.setTimer_watcher_of_ne hne timer
    refine ⟨List.mem_cons_of_mem v h.added, hwatcher ▸ h.same, hwatcher ▸ h.left, fun hfin => ?_⟩
    rw [hwatcher]
    show m.handled.count w + (place p v m.timerSet).count w + _ ≤ _
    rw [KeyedSet.count_place_of_ne hne]
    exact h.account hfin
  | cancel v hpc =>
    refine ⟨h.added, h.same, h.left, fun hfin => ?_⟩
    have hle : (m.cancel v).timerSet.count w ≤ m.timerSet.count w :=
      List.Sublist.count_le w List.filter_sublist
    have haccount := h.account hfin
    show m.handled.count w + (m.cancel v).timerSet.count w + rearms (m.watcher w).cls ≤ _
    omega
  | visitDue c v hpc hle =>
    refine ⟨h.added, h.same, h.left, fun hfin => ?_⟩
    have haccount := h.account hfin
    show (v :: m.handled).count w + (m.timerSet.erase v).count w + rearms (m.watcher w).cls ≤ _
    by_cases hvw : v = w
    · -- It moves from the set to the handled ones.
      subst hvw
      have hset : v ∈ m.timerSet := ht.iterator v (by rw [hpc]; rfl)
      have hpos := List.count_pos_iff.mpr hset
      rw [List.count_cons_self, List.count_erase_self]
      omega
    · rw [List.count_cons_of_ne hvw, List.count_erase_of_ne (Ne.symm hvw)]
      exact haccount
  | rearmed p c it v i r hpc hcls hr =>
    by_cases hvw : v = w
    · subst hvw
      exact h.rearmed ht p hpc hcls hr
    · -- Another one rearms.
      have hwatcher := (m.addAt p v).setTimer_watcher_of_ne (Ne.symm hvw)
        ⟨m.loopTime + i, .repeating i (if r = Infinite then r else r - 1)⟩
      have hcount := KeyedSet.count_place_of_ne (Ne.symm hvw) p m.timerSet
      refine ⟨h.added, ?_, ?_, fun hfin => ?_⟩ <;> dsimp only <;> rw [hwatcher]
      · exact h.same
      · exact h.left
      · show m.handled.count w + (place p v m.timerSet).count w + rearms (m.watcher w).cls ≤ rearms cls + 1
        rw [hcount]
        exact h.account hfin

/-! ## When a repeating watcher is handled again -/

/-- The watcher was handled `k` times when its timeout was moved to `due` at least, or it did not rearm;
the next time it is handled is not before that. -/
structure Awaits (w k : ℕ) (due : ℤ) (m : TimerEventManager) : Prop where
  added : w ∈ m.added
  past : k ≤ m.handled.count w
  waiting : m.handled.count w ≤ k →
    (∀ c it, m.pc ≠ .handling c it w) ∧ (due ≤ m.getTimeout w ∨ w ∉ m.timerSet)
  next : ∀ c it, m.pc = .handling c it w → m.handled.count w = k + 1 → due ≤ c

theorem Awaits.step {w k : ℕ} {due : ℤ} {m m' : TimerEventManager} {op : Op} (h : Awaits w k due m)
    (ht : Tracked m) (hs : Placed m op m') : Awaits w k due m' := by
  cases hs with
  | updateTime now => exact ⟨h.added, h.past, h.waiting, h.next⟩
  | create p v timer hv =>
    have hne : w ≠ v := fun e => hv (e ▸ h.added)
    refine ⟨List.mem_cons_of_mem v h.added, h.past, fun hk => ?_, h.next⟩
    obtain ⟨hpc, hdue⟩ := h.waiting hk
    refine ⟨hpc, ?_⟩
    rw [getTimeout_createAt p timer hne]
    exact hdue.imp_right fun hset hmem => (mem_createAt hmem).elim hne hset
  | cancel v hpc =>
    refine ⟨h.added, h.past, fun hk => ?_, h.next⟩
    obtain ⟨hpc, hdue⟩ := h.waiting hk
    exact ⟨hpc, hdue.imp_right fun hset hmem => hset (KeyedSet.mem_eraseKey.mp hmem).1⟩
  | process hpc => exact ⟨h.added, h.past, fun hk => ⟨nofun, (h.waiting hk).2⟩, nofun⟩
  | visitEnd => exact ⟨h.added, h.past, fun hk => ⟨nofun, (h.waiting hk).2⟩, nofun⟩
  | visitDue c v hpc hle =>
    by_cases hvw : v = w
    · subst hvw
      have hset : v ∈ m.timerSet := ht.iterator v (by rw [hpc]; rfl)
      have hcount : (v :: m.handled).count v = m.handled.count v + 1 := List.count_cons_self
      have hpast := h.past
      refine ⟨h.added, hcount ▸ Nat.le_succ_of_le h.past, fun hk => ?_, fun c' it' hpc' hk => ?_⟩
      · change (v :: m.handled).count v ≤ k at hk
        omega
      · -- It was pending with its new timeout.
        change (v :: m.handled).count v = k + 1 at hk
        cases hpc'
        rcases (h.waiting (by omega)).2 with hdue | hnot
        · exact le_trans hdue hle
        · exact absurd hset hnot
    · have hcount : (v :: m.handled).count w = m.handled.count w := List.count_cons_of_ne hvw
      refine ⟨h.added, hcount ▸ h.past, fun hk => ?_, fun c' it' hpc' hk => ?_⟩
      · change (v :: m.handled).count w ≤ k at hk
        rw [hcount] at hk
        refine ⟨fun c' it' hpc' => hvw (by cases hpc'; rfl), ?_⟩
        exact (h.waiting hk).2.imp_right fun hset hmem => hset (List.mem_of_mem_erase hmem)
      · cases hpc'
        exact absurd rfl hvw
  | returned c it v hpc hcls => exact ⟨h.added, h.past, fun hk => ⟨nofun, (h.waiting hk).2⟩, nofun⟩
  | rearmed p c it v i r hpc hcls hr =>
    refine ⟨h.added, h.past, fun hk => ⟨nofun, ?_⟩, nofun⟩
    obtain ⟨hpc', hdue⟩ := h.waiting hk
    -- It is another one that rearms.
    have hne : w ≠ v := fun e => hpc' c it (e ▸ hpc)
    have htimeout : ((m.addAt p v).setTimer v
        ⟨m.loopTime + i, .repeating i (if r = Infinite then r else r - 1)⟩).getTimeout w =
          m.getTimeout w := by
      rw [getTimeout_setTimer, Function.update_of_ne hne]
      rfl
    refine hdue.imp (fun hdue => ?_) fun hset hmem => ?_
    · exact le_of_le_of_eq hdue htimeout.symm
    · exact (KeyedSet.mem_of_mem_place hmem).elim hne hset

end Hulatang.TimerEventManager
