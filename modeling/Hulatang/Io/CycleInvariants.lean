import Mathlib.Data.Int.Order.Basic
import Mathlib.Order.MinMax
import Mathlib.Tactic.SplitIfs
import Hulatang.Io.CycleEventManager

/-!
# What a run of the task queue keeps

`Stepped` lists what one step of a thread can do, and `Consistent` relates the queue, the counter, the
callback being run and the threads caught between their two steps: what is counted is enqueued, what a
pass has still to dequeue is counted, and `size` is the 32-bit value of the counted callbacks that
`--size` has not subtracted yet. Every step keeps it.
-/

namespace Hulatang

/-- How many callbacks a thread in `createEvent` has enqueued and not counted. -/
def CreateEventPc.uncounted : CreateEventPc → ℕ
  | .enqueued => 1
  | _ => 0

/-- The index of a pass counts the callbacks it has run. -/
def CyclePc.Counts (passRan : ℕ) : CyclePc → Prop
  | .idle => True
  | .test n i => passRan = i ∧ (i : ℤ) ≤ max n 0
  | .spin n i => passRan = i ∧ (i : ℤ) < n
  | .running n i => passRan = i + 1 ∧ (i : ℤ) < n
  | .handled n i => passRan = i + 1 ∧ (i : ℤ) < n

namespace CycleEventManager

open ProducerQueue (ofProducer Takes)

/-! ## Steps -/

/-- What one step can do, guards included. -/
inductive Stepped (m : CycleEventManager) : Op → CycleEventManager → Prop
  | createEvent (t : Thread) (hc : m.create t = .idle) (hm : m.mayCreate t = true) :
      Stepped m (.createEvent t) (m.setCreate t (.trying 0))
  | enqueued (t : Thread) (i : ℕ) (hc : m.create t = .trying i) :
      Stepped m (.tryEnqueue t true) (m.push t)
  | failed (t : Thread) (i i' : ℕ) (hc : m.create t = .trying i) :
      Stepped m (.tryEnqueue t false) (m.setCreate t (.trying i'))
  | incSize (t : Thread) (hc : m.create t = .enqueued) : Stepped m (.incSize t) (m.count t)
  | process (hpc : m.pc = .idle) (hc : m.create .loop = .idle) :
      Stepped m .process { m with pc := .test m.size 0, passRan := 0 }
  | testNext (n : ℤ) (i : ℕ) (hpc : m.pc = .test n i) (hi : (i : ℤ) < n) :
      Stepped m .test { m with pc := .spin n i }
  | testEnd (n : ℤ) (i : ℕ) (hpc : m.pc = .test n i) (hi : n ≤ i) :
      Stepped m .test { m with pc := .idle, passes := (n, m.passRan) :: m.passes }
  | empty (n : ℤ) (i : ℕ) (hpc : m.pc = .spin n i) : Stepped m (.tryDequeue none) m
  | dequeued (n : ℤ) (i k : ℕ) (f : Callback) (queue : List Callback) (hpc : m.pc = .spin n i)
      (hq : Takes Prod.fst m.queue f queue) :
      Stepped m (.tryDequeue (some k))
        { m with
          queue := queue
          pc := .running n i
          ran := m.ran ++ [f]
          passRan := m.passRan + 1 }
  | handlerReturned (n : ℤ) (i : ℕ) (hpc : m.pc = .running n i) (hc : m.create .loop = .idle) :
      Stepped m .handlerReturned { m with pc := .handled n i }
  | decSize (n : ℤ) (i : ℕ) (hpc : m.pc = .handled n i) :
      Stepped m .decSize { m with size := int32 (m.size - 1), pc := .test n (i + 1) }

theorem stepped_of_step {m m' : CycleEventManager} {op : Op} (h : m.step op = some m') :
    Stepped m op m' := by
  cases op with
  | createEvent t =>
    unfold step at h
    dsimp only at h
    split_ifs at h with hc
    cases h
    exact .createEvent t hc.1 hc.2
  | tryEnqueue t ok =>
    unfold step at h
    dsimp only at h
    split at h
    · rename_i i hc
      cases ok with
      | true =>
        cases h
        exact .enqueued t i hc
      | false =>
        cases h
        exact .failed t i _ hc
    · cases h
  | incSize t =>
    unfold step at h
    dsimp only at h
    split_ifs at h with hc
    cases h
    exact .incSize t hc
  | process =>
    unfold step at h
    dsimp only at h
    split_ifs at h with hc
    cases h
    exact .process hc.1 hc.2
  | test =>
    unfold step at h
    dsimp only at h
    split at h
    · rename_i n i hpc
      split_ifs at h with hi
      · cases h
        exact .testNext n i hpc hi
      · cases h
        exact .testEnd n i hpc (not_lt.mp hi)
    · cases h
  | tryDequeue k =>
    unfold step at h
    dsimp only at h
    split at h
    · rename_i n i hpc
      cases h
      exact .empty n i hpc
    · rename_i n i k hpc
      obtain ⟨⟨f, queue⟩, hq, rfl⟩ := Option.map_eq_some_iff.mp h
      exact .dequeued n i k f queue hpc (ProducerQueue.takes_of_take? hq)
    · cases h
  | handlerReturned =>
    unfold step at h
    dsimp only at h
    split at h
    · rename_i n i hpc
      split_ifs at h with hc
      cases h
      exact .handlerReturned n i hpc hc
    · cases h
  | decSize =>
    unfold step at h
    dsimp only at h
    split at h
    · rename_i n i hpc
      cases h
      exact .decSize n i hpc
    · cases h

/-! ## The invariant -/

/-- The queue, the counter and the threads agree. -/
structure Consistent (m : CycleEventManager) : Prop where
  enqueued : ∀ t, ofProducer Prod.fst t m.enqueued =
    (List.range (m.calls t + (m.create t).uncounted)).map (Prod.mk t)
  order : ∀ t, ofProducer Prod.fst t (m.ran ++ m.queue) = ofProducer Prod.fst t m.enqueued
  length : m.ran.length + m.queue.length = m.enqueued.length
  mem_counted : ∀ f, f ∈ m.counted ↔ f.2 < m.calls f.1
  counted_nodup : m.counted.Nodup
  ran_le : m.ran.length ≤ m.counted.length
  remaining_le : m.pc.remaining ≤ m.counted.length - m.ran.length
  size_eq : m.size = int32 (m.counted.length - m.ran.length + m.pc.inFlight)
  counts : m.pc.Counts m.passRan
  passes : ∀ p ∈ m.passes, (p.2 : ℤ) = max p.1 0

/-! ## What the invariant gives -/

theorem Consistent.mem_enqueued {m : CycleEventManager} (h : Consistent m) {f : Callback} :
    f ∈ m.enqueued ↔ f.2 < m.calls f.1 + (m.create f.1).uncounted := by
  have hmem : f ∈ m.enqueued ↔ f ∈ ofProducer Prod.fst f.1 m.enqueued := by
    simp [ofProducer]
  rw [hmem, h.enqueued, List.mem_map]
  constructor
  · rintro ⟨n, hn, hf⟩
    rw [← congrArg Prod.snd hf]
    exact List.mem_range.mp hn
  · intro hlt
    exact ⟨f.2, List.mem_range.mpr hlt, rfl⟩

/-- The entries that are queued are at least those counted and not dequeued. -/
theorem Consistent.counted_le {m : CycleEventManager} (h : Consistent m) :
    m.counted.length ≤ m.ran.length + m.queue.length := by
  rw [h.length]
  refine ProducerQueue.length_le_of_subset h.counted_nodup fun f hf => h.mem_enqueued.mpr ?_
  have hlt := (h.mem_counted f).mp hf
  omega

/-- A pass never has more dequeues to do than entries are queued. -/
theorem Consistent.remaining_le_queue {m : CycleEventManager} (h : Consistent m) :
    m.pc.remaining ≤ m.queue.length := by
  have hle := h.counted_le
  have hrem := h.remaining_le
  omega

/-- What has run was enqueued, and nothing has run twice. -/
theorem Consistent.ran_nodup {m : CycleEventManager} (h : Consistent m) :
    (m.ran ++ m.queue).Nodup := by
  refine ProducerQueue.nodup_of_ofProducer fun t : Thread => (?_ : (ofProducer Prod.fst t _).Nodup)
  rw [h.order, h.enqueued]
  exact List.nodup_range.map fun _ _ heq => congrArg Prod.snd heq

/-- When as many callbacks have run as are counted, and every uncounted one is still queued, the
counted ones have run. -/
theorem Consistent.counted_ran {m : CycleEventManager} (h : Consistent m)
    (hlen : m.counted.length ≤ m.ran.length)
    (hqueue : ∀ t, m.create t = .enqueued → m.callback t ∈ m.queue) :
    ∀ f ∈ m.counted, f ∈ m.ran := by
  obtain ⟨hran, -, hdisj⟩ := List.nodup_append.mp h.ran_nodup
  have hsub : ∀ f ∈ m.ran, f ∈ m.counted := by
    intro f hf
    have henq : f ∈ m.enqueued :=
      (ProducerQueue.mem_congr h.order).mp (List.mem_append_left m.queue hf)
    have hlt := h.mem_enqueued.mp henq
    rw [h.mem_counted]
    by_contra hge
    -- The callback of a thread caught before its `++size` is queued, so it has not run.
    cases hc : m.create f.1 with
    | enqueued =>
      rw [hc] at hlt
      have heq : f = m.callback f.1 :=
        Prod.ext rfl (Nat.le_antisymm (Nat.lt_succ_iff.mp hlt) (not_lt.mp hge))
      exact hdisj f hf f (heq ▸ hqueue f.1 hc) rfl
    | idle | trying i =>
      rw [hc] at hlt
      exact hge hlt
  intro f hf
  have hperm := (hran.subperm hsub).perm_of_length_le hlen
  exact hperm.mem_iff.mpr hf

/-- The 32-bit value of a count that is not negative is at most the count. -/
theorem int32_le (x : ℤ) (hx : 0 ≤ x) : int32 x ≤ x := by
  unfold int32
  rw [Int.bmod_eq_emod]
  split_ifs <;> omega

theorem int32_add_int32 (x y : ℤ) : int32 (int32 x + y) = int32 (x + y) :=
  Int.bmod_add_bmod

theorem int32_sub_int32 (x y : ℤ) : int32 (int32 x - y) = int32 (x - y) :=
  Int.bmod_sub_bmod

/-! ## Every step keeps it -/

theorem consistent_initial : Consistent initial where
  enqueued := by simp [initial, ofProducer, CreateEventPc.uncounted]
  order := by simp [initial]
  length := by simp [initial]
  mem_counted := by simp [initial]
  counted_nodup := by simp [initial]
  ran_le := by simp [initial]
  remaining_le := by simp [initial, CyclePc.remaining]
  size_eq := by simp [initial, CyclePc.inFlight, int32]
  counts := by simp [initial, CyclePc.Counts]
  passes := by simp [initial]

/-- A thread that goes on in `createEvent` without having enqueued. -/
theorem Consistent.setCreate {m : CycleEventManager} (h : Consistent m) {t : Thread}
    {pc : CreateEventPc} (hpc : pc.uncounted = (m.create t).uncounted) :
    Consistent (m.setCreate t pc) :=
  { h with
    enqueued := fun u => by
      change _ = (List.range (m.calls u + (Function.update m.create t pc u).uncounted)).map _
      -- What the thread had enqueued and not counted is now counted.
      by_cases hu : u = t
      · rw [hu, Function.update_self, hpc]
        exact h.enqueued t
      · rw [Function.update_of_ne hu]
        exact h.enqueued u }

theorem Consistent.push {m : CycleEventManager} (h : Consistent m) {t : Thread} {i : ℕ}
    (hc : m.create t = .trying i) : Consistent (m.push t) :=
  { h with
    enqueued := fun u => by
      change ofProducer Prod.fst u (m.enqueued ++ [m.callback t]) =
        (List.range (m.calls u + (Function.update m.create t .enqueued u).uncounted)).map _
      rw [ProducerQueue.ofProducer_append, h.enqueued]
      by_cases hu : u = t
      · -- The thread's own sequence grows by its next callback, which is not counted yet.
        rw [hu, Function.update_self, hc]
        change _ = (List.range (m.calls t + 1)).map _
        rw [List.range_succ, List.map_append]
        exact congrArg _ (ProducerQueue.ofProducer_singleton_self (m.callback t))
      · rw [Function.update_of_ne hu,
          ProducerQueue.ofProducer_singleton_of_ne (m.callback t) (Ne.symm hu), List.append_nil]
    order := fun u => by
      change ofProducer Prod.fst u (m.ran ++ (m.queue ++ [m.callback t])) =
        ofProducer Prod.fst u (m.enqueued ++ [m.callback t])
      rw [← List.append_assoc, ProducerQueue.ofProducer_append, h.order,
        ProducerQueue.ofProducer_append]
    length := by
      change m.ran.length + (m.queue ++ [m.callback t]).length =
        (m.enqueued ++ [m.callback t]).length
      have hlen := h.length
      simp only [List.length_append, List.length_singleton]
      omega }

theorem Consistent.count {m : CycleEventManager} (h : Consistent m) {t : Thread}
    (hc : m.create t = .enqueued) : Consistent (m.count t) := by
  have hlen : ((m.counted ++ [m.callback t]).length : ℤ) = m.counted.length + 1 := by
    rw [List.length_append, List.length_singleton]
    omega
  refine { h with
    enqueued := fun u => ?_
    mem_counted := fun f => ?_
    counted_nodup := ?_
    ran_le := ?_
    remaining_le := ?_
    size_eq := ?_ }
  · change _ = (List.range (Function.update m.calls t (m.calls t + 1) u +
      (Function.update m.create t .idle u).uncounted)).map _
    rw [show (m.count t).enqueued = m.enqueued from rfl, h.enqueued]
    by_cases hu : u = t
    · rw [hu, Function.update_self, Function.update_self, hc]
      rfl
    · rw [Function.update_of_ne hu, Function.update_of_ne hu]
  · change f ∈ m.counted ++ [m.callback t] ↔ f.2 < Function.update m.calls t (m.calls t + 1) f.1
    rw [List.mem_append, List.mem_singleton, h.mem_counted f]
    by_cases hu : f.1 = t
    · -- The callback that is counted is the next one of its thread.
      have hcb : f = m.callback t ↔ f.2 = m.calls t :=
        ⟨fun e => congrArg Prod.snd e, fun e => Prod.ext hu e⟩
      rw [hu, Function.update_self, hcb]
      omega
    · have hcb : f ≠ m.callback t := fun e => hu (congrArg Prod.fst e)
      rw [Function.update_of_ne hu]
      simp only [hcb, or_false]
  · refine List.nodup_append.mpr ⟨h.counted_nodup, List.nodup_singleton _, fun f hf g hg hfg => ?_⟩
    have hlt := (h.mem_counted f).mp hf
    rw [hfg, List.mem_singleton.mp hg] at hlt
    exact Nat.lt_irrefl _ hlt
  · have hle := h.ran_le
    change m.ran.length ≤ (m.counted ++ [m.callback t]).length
    omega
  · have hle := h.remaining_le
    change m.pc.remaining ≤ ((m.counted ++ [m.callback t]).length : ℤ) - m.ran.length
    omega
  · change int32 (m.size + 1) = int32 (((m.counted ++ [m.callback t]).length : ℤ) - m.ran.length +
      m.pc.inFlight)
    rw [h.size_eq, int32_add_int32, hlen]
    congr 1
    omega

theorem Consistent.step {m m' : CycleEventManager} {op : Op} (h : Consistent m)
    (hs : Stepped m op m') : Consistent m' := by
  have hrem := h.remaining_le
  have hran := h.ran_le
  have hsize := h.size_eq
  have hcounts := h.counts
  cases hs with
  | createEvent t hc hm => exact h.setCreate (by rw [hc]; rfl)
  | enqueued t i hc => exact h.push hc
  | failed t i i' hc => exact h.setCreate (by rw [hc]; rfl)
  | incSize t hc => exact h.count hc
  | process hpc hc =>
    rw [hpc] at hsize
    refine { h with remaining_le := ?_, size_eq := hsize, counts := ⟨rfl, ?_⟩ }
    · change m.size - (0 : ℕ) ≤ m.counted.length - m.ran.length
      -- The pass dequeues `size` times at most, and a wrapped `size` is only smaller than the count.
      rw [hsize]
      have hle := int32_le (m.counted.length - m.ran.length + CyclePc.idle.inFlight) (by omega)
      simp only [CyclePc.inFlight] at hle ⊢
      omega
    · exact le_max_right _ _
  | testNext n i hpc hi =>
    rw [hpc] at hrem hsize hcounts
    exact { h with remaining_le := hrem, size_eq := hsize, counts := ⟨hcounts.1, hi⟩ }
  | testEnd n i hpc hi =>
    rw [hpc] at hsize hcounts
    refine { h with remaining_le := ?_, size_eq := hsize, counts := trivial, passes := fun p hp => ?_ }
    · change (0 : ℤ) ≤ m.counted.length - m.ran.length
      omega
    · rcases List.mem_cons.mp hp with rfl | hp
      · -- The loop has come to its bound, or has not begun for a negative one.
        obtain ⟨hi', hle⟩ := hcounts
        change (m.passRan : ℤ) = max n 0
        omega
      · exact h.passes p hp
  | empty n i hpc => exact h
  | dequeued n i k f queue hpc hq =>
    rw [hpc] at hrem hsize hcounts
    have hlen := h.length
    have hqlen := hq.length
    refine { h with
      order := fun t => ?_
      length := ?_
      ran_le := ?_
      remaining_le := ?_
      size_eq := ?_
      counts := ⟨congrArg (· + 1) hcounts.1, hcounts.2⟩ }
    · exact (hq.ofProducer m.ran t).trans (h.order t)
    -- One more has run, and `size` is still to be decremented for it.
    all_goals simp only [CyclePc.remaining, CyclePc.inFlight, CyclePc.Counts, List.length_append,
      List.length_singleton] at hrem hsize hcounts ⊢
    · omega
    · omega
    · omega
    · rw [hsize]
      congr 1
      omega
  | handlerReturned n i hpc hc =>
    rw [hpc] at hrem hsize hcounts
    exact { h with remaining_le := hrem, size_eq := hsize, counts := hcounts }
  | decSize n i hpc =>
    rw [hpc] at hrem hsize hcounts
    refine { h with remaining_le := ?_, size_eq := ?_, counts := ⟨hcounts.1, ?_⟩ }
    · simp only [CyclePc.remaining] at hrem ⊢
      omega
    · change int32 (m.size - 1) = _
      rw [hsize, int32_sub_int32]
      simp only [CyclePc.inFlight]
      congr 1
      omega
    · have hlt := hcounts.2
      omega

/-! ## What only grows -/

/-- Only `++size` counts a callback. -/
theorem Stepped.mem_counted {m m' : CycleEventManager} {op : Op} (hs : Stepped m op m')
    {f : Callback} : f ∈ m'.counted ↔
      f ∈ m.counted ∨ ∃ t, op = .incSize t ∧ f = m.callback t := by
  cases hs with
  | incSize t hc =>
    change f ∈ m.counted ++ [m.callback t] ↔ _
    rw [List.mem_append, List.mem_singleton]
    constructor
    · rintro (hf | hf)
      · exact .inl hf
      · exact .inr ⟨t, rfl, hf⟩
    · rintro (hf | ⟨u, hu, hf⟩)
      · exact .inl hf
      · cases hu
        exact .inr hf
  | _ =>
    refine ⟨.inl, ?_⟩
    rintro (hf | ⟨u, hu, hf⟩)
    · exact hf
    · cases hu

theorem Stepped.ran_subset {m m' : CycleEventManager} {op : Op} (hs : Stepped m op m')
    {f : Callback} (hf : f ∈ m.ran) : f ∈ m'.ran := by
  cases hs with
  | dequeued n i k g queue hpc hq => exact List.mem_append_left _ hf
  | _ => exact hf

/-- Only `process` starts a pass. -/
theorem Stepped.pc_idle {m m' : CycleEventManager} {op : Op} (hs : Stepped m op m')
    (hpc : m.pc = .idle) (hop : op ≠ .process) : m'.pc = .idle := by
  cases hs with
  | createEvent | enqueued | failed | incSize | empty => exact hpc
  | process => exact absurd rfl hop
  | testEnd => rfl
  | testNext n i hpc' | dequeued n i k f queue hpc' | handlerReturned n i hpc' | decSize n i hpc' =>
    rw [hpc] at hpc'
    cases hpc'

/-! ## When `size` is the number of pending callbacks -/

/-- The callbacks that are counted and not yet subtracted from `size` are fewer than `2^32`. -/
def Exact (m : CycleEventManager) : Prop :=
  (m.counted.length : ℤ) - m.ran.length + m.pc.inFlight < 2^32

/-- A `++size` that does not wrap `size` to zero keeps the number of pending callbacks below `2^32`;
the other steps do not raise it. -/
theorem Exact.step {m m' : CycleEventManager} {op : Op} (he : Exact m) (h : Consistent m)
    (hs : Stepped m op m') (hwrap : ∀ t, op = .incSize t → int32 (m.size + 1) ≠ 0) : Exact m' := by
  unfold Exact at he ⊢
  cases hs with
  | createEvent | enqueued | failed | empty => exact he
  | incSize t hc =>
    have hne := hwrap t rfl
    rw [h.size_eq, int32_add_int32] at hne
    change ((m.counted ++ [m.callback t]).length : ℤ) - m.ran.length + m.pc.inFlight < 2^32
    rw [List.length_append, List.length_singleton]
    -- The count would reach `2^32`, whose 32-bit value is zero.
    by_contra hge
    refine hne ?_
    have heq : (m.counted.length : ℤ) - m.ran.length + m.pc.inFlight + 1 = 2^32 := by omega
    rw [heq]
    decide
  | process hpc | testNext n i hpc | testEnd n i hpc | handlerReturned n i hpc =>
    rw [hpc] at he
    exact he
  | dequeued n i k f queue hpc hq =>
    rw [hpc] at he
    simp only [CyclePc.inFlight, List.length_append, List.length_singleton] at he ⊢
    omega
  | decSize n i hpc =>
    rw [hpc] at he
    simp only [CyclePc.inFlight] at he ⊢
    omega

/-- Outside a pass, an exact `size` of zero says that as many callbacks have run as are counted. -/
theorem Exact.ran_of_isIdle {m : CycleEventManager} (he : Exact m) (h : Consistent m)
    (hpc : m.pc = .idle) (hidle : m.isIdle = true) : m.counted.length ≤ m.ran.length := by
  have hsize := h.size_eq
  have hran := h.ran_le
  rw [of_decide_eq_true hidle, hpc] at hsize
  unfold Exact at he
  rw [hpc] at he
  simp only [CyclePc.inFlight, int32, Int.bmod_eq_emod] at hsize he
  split_ifs at hsize <;> omega

end CycleEventManager

end Hulatang
