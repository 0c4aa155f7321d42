import Mathlib.Data.List.Perm.Basic
import Mathlib.Logic.Function.Basic
import Hulatang.Io.SendStream

/-!
# `send` from another thread

`TCPConnection::send` puts its work into a closure that captures the `Buf` by value: a pointer and a
length. On the loop thread the closure runs inside of the call. Off it the closure is queued, and reads the
caller's memory when the loop runs it, in any order among the queued ones, while the caller has gone on
since `send` has returned. Both paths append the same bytes as long as the caller neither changes nor
releases a byte that a queued closure will read (`robust_iff_undisturbed`).
-/

namespace Hulatang

/-- The bytes of the process, where there are any. -/
abbrev Memory := ℕ → Option UInt8

namespace Memory

/-- The `len` bytes from `buf` on, if all of them are there. -/
def bytes (m : Memory) : ℕ → ℕ → Option (List UInt8)
  | _, 0 => some []
  | buf, len + 1 => (m buf).bind fun b => (m.bytes (buf + 1) len).map (b :: ·)

/-- What a `Buf` points to. -/
def read (m : Memory) (buf len : ℕ) : Option Buf :=
  (m.bytes buf len).bind fun bs => if h : bs.length ≤ maxSize then some ⟨bs, h⟩ else none

variable {m m' : Memory} {buf len a : ℕ}

/-- The bytes that are read are those of the memory, one after the other. -/
theorem bytes_eq_some_iff {bs : List UInt8} :
    m.bytes buf len = some bs ↔ bs.length = len ∧ ∀ i < len, m (buf + i) = bs[i]? := by
  induction len generalizing buf bs with
  | zero =>
    unfold bytes
    rw [Option.some_inj, List.length_eq_zero_iff]
    exact ⟨fun h => ⟨h.symm, fun i hi => absurd hi (Nat.not_lt_zero i)⟩, fun h => h.1.symm⟩
  | succ len ih =>
    unfold bytes
    rw [Option.bind_eq_some_iff]
    constructor
    · rintro ⟨b, hb, htail⟩
      obtain ⟨rest, hrest, rfl⟩ := Option.map_eq_some_iff.mp htail
      obtain ⟨hlength, hat⟩ := ih.mp hrest
      refine ⟨congrArg Nat.succ hlength, fun i hi => ?_⟩
      cases i with
      | zero => exact hb
      | succ i =>
        have hnext := hat i (Nat.lt_of_succ_lt_succ hi)
        rw [Nat.add_assoc, Nat.add_comm 1 i] at hnext
        exact hnext
    · rintro ⟨hlength, hat⟩
      obtain ⟨b, rest, rfl⟩ := List.exists_cons_of_length_eq_add_one hlength
      refine ⟨b, hat 0 (Nat.succ_pos len), Option.map_eq_some_iff.mpr ⟨rest, ih.mpr ⟨?_, ?_⟩, rfl⟩⟩
      · exact Nat.succ.inj hlength
      · intro i hi
        have hnext := hat (i + 1) (Nat.succ_lt_succ hi)
        rw [← Nat.add_assoc, Nat.add_right_comm] at hnext
        exact hnext

theorem read_eq_some_iff {b : Buf} :
    m.read buf len = some b ↔ b.buf.length = len ∧ ∀ i < len, m (buf + i) = b.buf[i]? := by
  rw [← bytes_eq_some_iff]
  unfold read
  constructor
  · intro h
    obtain ⟨bs, hbs, hread⟩ := Option.bind_eq_some_iff.mp h
    split_ifs at hread
    cases hread
    exact hbs
  · intro h
    rw [h, Option.bind_some, dif_pos b.len_le]

/-- A change of a byte that is not read does not change what is read. -/
theorem read_update (ha : buf ≤ a → a < buf + len → m' a = m a) (hm : ∀ c, c ≠ a → m' c = m c) {b : Buf}
    (h : m.read buf len = some b) : m'.read buf len = some b := by
  obtain ⟨hlength, hat⟩ := read_eq_some_iff.mp h
  refine read_eq_some_iff.mpr ⟨hlength, fun i hi => ?_⟩
  by_cases hia : buf + i = a
  · rw [hia, ha (by omega) (by omega), ← hia]
    exact hat i hi
  · rw [hm _ hia]
    exact hat i hi

/-- Where the same is read, the memory is the same. -/
theorem eq_of_read {b : Buf} (h : m.read buf len = some b) (h' : m'.read buf len = some b) (hle : buf ≤ a)
    (hlt : a < buf + len) : m' a = m a := by
  obtain ⟨i, rfl⟩ := Nat.exists_eq_add_of_le hle
  have hi : i < len := by omega
  rw [(read_eq_some_iff.mp h).2 i hi, (read_eq_some_iff.mp h').2 i hi]

end Memory

/-- A closure of `send` in the task queue. -/
structure SendTask where
  /-- The `Buf` that it has captured. -/
  buf : ℕ
  len : ℕ
  /-- What the `Buf` pointed to when `send` was called. -/
  held : Buf
  deriving DecidableEq

/-- Whether the closure will read the byte. -/
def SendTask.Covers (task : SendTask) (a : ℕ) : Prop := task.buf ≤ a ∧ a < task.buf + task.len

instance (task : SendTask) : DecidablePred task.Covers := fun _ => inferInstanceAs (Decidable (_ ∧ _))

/-- A connection, the memory of its callers, and the closures in the loop's queue. -/
structure OffLoopSend where
  stream : SendStream
  memory : Memory
  queue : List SendTask
  /-- What the `Buf` of each call of `send` pointed to. -/
  calls : List Buf
  /-- What each call of `append` was given, and what the `Buf` pointed to at the call of `send`. -/
  appends : List (Buf × Buf)
  /-- A closure has read a byte that is not there. -/
  invalid : Bool

namespace OffLoopSend

def initial (writing : Bool) (memory : Memory) : OffLoopSend := ⟨.initial writing, memory, [], [], [], false⟩

/-- The closure of `send`. -/
def fn (s : OffLoopSend) (buf len : ℕ) (held : Buf) : OffLoopSend :=
  match s.memory.read buf len with
  | none => { s with invalid := true }
  | some bytes => { s with stream := s.stream.send bytes, appends := s.appends ++ [(bytes, held)] }

/-- `EventLoop::queueInLoop` of the closure. -/
def queueInLoop (s : OffLoopSend) (task : SendTask) : OffLoopSend := { s with queue := s.queue ++ [task] }

/-- `TCPConnection::send`, whose `Buf` points to `held`. -/
def send (s : OffLoopSend) (inLoop : Bool) (buf len : ℕ) (held : Buf) : OffLoopSend :=
  if inLoop then s.fn buf len held else s.queueInLoop ⟨buf, len, held⟩

/-- The loop takes a closure out of the queue and runs it. -/
def runTask (s : OffLoopSend) (k : ℕ) (task : SendTask) : OffLoopSend :=
  { s with queue := s.queue.eraseIdx k }.fn task.buf task.len task.held

/-- The steps of a run. -/
inductive Op
  /-- A call of `send`, with a pointer to bytes that are there. -/
  | send (inLoop : Bool) (buf len : ℕ)
  /-- A caller writes a byte, or releases it. -/
  | store (a : ℕ) (value : Option UInt8)
  /-- The loop runs one of the queued closures. -/
  | task (k : ℕ)
  | pollOut (result : WriteResult)
  deriving DecidableEq

/-- One step, while nothing has failed. -/
def step (s : OffLoopSend) (op : Op) : Option OffLoopSend :=
  if s.stream.fault = none ∧ s.invalid = false then
    match op with
    | .send inLoop buf len =>
      (s.memory.read buf len).map fun held =>
        { s with calls := s.calls ++ [held] }.send inLoop buf len held
    | .store a value => some { s with memory := Function.update s.memory a value }
    | .task k => s.queue[k]?.map (s.runTask k)
    | .pollOut result => (s.stream.step (.pollOut result)).map fun stream => { s with stream := stream }
  else none

/-- Every `append` was given what the caller's buffer held when `send` was called, one for each call but those
whose closures are queued, and that is what `sendBuffer` has been given. -/
structure Faithful (s : OffLoopSend) : Prop where
  appends : ∀ p ∈ s.appends, p.1 = p.2
  calls : (s.appends.map Prod.snd ++ s.queue.map SendTask.held).Perm s.calls
  buffered : s.stream.fault = none →
    s.stream.written ++ s.stream.sendBuffer.toStringView = (s.appends.map fun p => p.2.buf).flatten.map some
  valid : s.invalid = false

/-- No byte changes that a queued closure will read. -/
def Undisturbed (s : OffLoopSend) : Op → Prop
  | .store a value => ∀ task ∈ s.queue, task.Covers a → value = s.memory a
  | _ => True

instance (s : OffLoopSend) : DecidablePred s.Undisturbed
  | .send _ _ _ => inferInstanceAs (Decidable True)
  | .store _ _ => inferInstanceAs (Decidable (∀ _ ∈ _, _))
  | .task _ => inferInstanceAs (Decidable True)
  | .pollOut _ => inferInstanceAs (Decidable True)

/-- The steps of the loop's queue. -/
def Queued (op : Op) : Prop := ∃ k, op = .task k

/-! ## The two paths -/

variable {s t : OffLoopSend} {op : Op} {buf len : ℕ} {held : Buf}

/-- The closure appends what it reads. -/
theorem fn_of_read {bytes : Buf} (h : s.memory.read buf len = some bytes) :
    s.fn buf len held =
      { s with stream := s.stream.send bytes, appends := s.appends ++ [(bytes, held)] } := by
  unfold fn
  rw [h]

/-- Nothing has failed before a step is taken. -/
theorem enabled_of_step (hs : s.step op = some t) : s.stream.fault = none ∧ s.invalid = false := by
  unfold step at hs
  split_ifs at hs with henabled
  exact henabled

/-- The loop may run any of the queued closures. -/
theorem step_task (hfault : s.stream.fault = none) (hvalid : s.invalid = false) {k : ℕ} {task : SendTask}
    (hk : s.queue[k]? = some task) : s.step (.task k) = some (s.runTask k task) := by
  unfold step
  rw [if_pos ⟨hfault, hvalid⟩]
  dsimp only
  rw [hk, Option.map_some]

/-- A closure that runs before anything else has happened does what `send` does on the loop thread. -/
theorem task_eq_send (hs : s.step (.send false buf len) = some t) :
    t.step (.task s.queue.length) = s.step (.send true buf len) := by
  obtain ⟨hfault, hvalid⟩ := enabled_of_step hs
  unfold step at hs
  rw [if_pos ⟨hfault, hvalid⟩] at hs
  obtain ⟨held, hread, rfl⟩ := Option.map_eq_some_iff.mp hs
  have hqueue : (s.queue ++ [SendTask.mk buf len held]).eraseIdx s.queue.length = s.queue := by
    rw [List.eraseIdx_append_of_length_le (Nat.le_refl _), Nat.sub_self, List.eraseIdx_cons_zero,
      List.append_nil]
  have hrun : ∀ u : OffLoopSend, u.stream.fault = none → u.invalid = false → u.queue = s.queue →
      (u.queueInLoop ⟨buf, len, held⟩).step (.task s.queue.length) = some (u.fn buf len held) := by
    intro u hufault huvalid huqueue
    have hat : (u.queueInLoop ⟨buf, len, held⟩).queue[s.queue.length]? = some ⟨buf, len, held⟩ := by
      rw [← huqueue]
      exact List.getElem?_concat_length
    rw [step_task (s := u.queueInLoop ⟨buf, len, held⟩) hufault huvalid hat]
    unfold runTask queueInLoop
    dsimp only
    rw [huqueue, hqueue, ← huqueue]
  calc _ = some ({ s with calls := s.calls ++ [held] }.fn buf len held) :=
        hrun { s with calls := s.calls ++ [held] } hfault hvalid rfl
    _ = s.step (.send true buf len) := by
        unfold step
        rw [if_pos ⟨hfault, hvalid⟩]
        dsimp only
        rw [hread]
        rfl

/-! ## What the queued closures will read -/

/-- Every queued closure will read what its `Buf` pointed to, and the stream implements a pipe that has
accepted what was given to `append`. -/
structure Inv (s : OffLoopSend) : Prop where
  appends : ∀ p ∈ s.appends, p.1 = p.2
  calls : (s.appends.map Prod.snd ++ s.queue.map SendTask.held).Perm s.calls
  stream : s.stream.fault = none →
    ∃ p, SendStream.Refines s.stream p ∧ p.accepted = (s.appends.map fun p => p.2.buf).flatten
  valid : s.invalid = false
  queue : ∀ task ∈ s.queue, s.memory.read task.buf task.len = some task.held

theorem inv_initial (writing : Bool) (memory : Memory) : Inv (initial writing memory) :=
  ⟨List.forall_mem_nil _, .refl _, fun _ => ⟨_, SendStream.refines_initial writing, rfl⟩, rfl,
    List.forall_mem_nil _⟩

theorem Inv.faithful (h : Inv s) : Faithful s := by
  refine ⟨h.appends, h.calls, fun hfault => ?_, h.valid⟩
  obtain ⟨p, hp, haccepted⟩ := h.stream hfault
  rw [hp.delivered, hp.queued, ← List.map_append, p.conserved, haccepted]

/-- A closure that reads what its `Buf` pointed to appends that, and leaves the queue, or has not been in
it. -/
theorem Inv.fn (h : Inv s) (hfault : s.stream.fault = none) (hread : s.memory.read buf len = some held)
    {queue : List SendTask} {calls : List Buf} (hqueue : ∀ task ∈ queue, task ∈ s.queue)
    (hcalls : (s.appends.map Prod.snd ++ held :: queue.map SendTask.held).Perm calls) :
    Inv ({ s with queue := queue, calls := calls }.fn buf len held) := by
  have hdone : { s with queue := queue, calls := calls }.fn buf len held =
      { s with
        queue := queue, calls := calls, stream := s.stream.send held
        appends := s.appends ++ [(held, held)] } :=
    fn_of_read (s := { s with queue := queue, calls := calls }) hread
  rw [hdone]
  refine ⟨?_, ?_, fun hrunning => ?_, h.valid, fun task htask => h.queue task (hqueue task htask)⟩
  · exact List.forall_mem_append.mpr ⟨h.appends, List.forall_mem_singleton.mpr rfl⟩
  · show (List.map Prod.snd (s.appends ++ [(held, held)]) ++ _).Perm calls
    rw [List.map_append, List.map_singleton, List.append_assoc, List.singleton_append]
    exact hcalls
  · obtain ⟨p, hp, haccepted⟩ := h.stream hfault
    cases hp.send hfault held with
    | running _ hrefines =>
      refine ⟨_, hrefines, ?_⟩
      show p.accepted ++ held.buf = ((s.appends ++ [(held, held)]).map fun p => p.2.buf).flatten
      rw [haccepted, List.map_append, List.flatten_append, List.map_singleton, List.flatten_singleton]
    | tooLong _ _ _ hthrown =>
      rw [hthrown] at hrunning
      cases hrunning
    | failed hop _ => cases hop

theorem Inv.store (h : Inv s) {a : ℕ} {value : Option UInt8} (hop : Undisturbed s (.store a value)) :
    Inv { s with memory := Function.update s.memory a value } := by
  refine ⟨h.appends, h.calls, h.stream, h.valid, fun task htask => ?_⟩
  refine Memory.read_update (a := a) (fun hle hlt => ?_) (fun c hc => ?_) (h.queue task htask)
  · calc Function.update s.memory a value a = value := Function.update_self ..
      _ = s.memory a := hop task htask ⟨hle, hlt⟩
  · exact Function.update_of_ne hc value s.memory

/-- The caller has lent a `Buf` to a closure that is queued. -/
theorem Inv.queueInLoop (h : Inv s) (hread : s.memory.read buf len = some held) :
    Inv ({ s with calls := s.calls ++ [held] }.queueInLoop ⟨buf, len, held⟩) := by
  refine ⟨h.appends, ?_, h.stream, h.valid, ?_⟩
  · show (s.appends.map Prod.snd ++ (s.queue ++ [SendTask.mk buf len held]).map SendTask.held).Perm
      (s.calls ++ [held])
    rw [List.map_append, ← List.append_assoc]
    exact h.calls.append_right [held]
  · exact List.forall_mem_append.mpr ⟨h.queue, List.forall_mem_singleton.mpr hread⟩

theorem Inv.pollOut (h : Inv s) (hfault : s.stream.fault = none) {result : WriteResult} {stream : SendStream}
    (hs : s.stream.step (.pollOut result) = some stream) : Inv { s with stream := stream } := by
  refine ⟨h.appends, h.calls, fun hrunning => ?_, h.valid, h.queue⟩
  obtain ⟨p, hp, haccepted⟩ := h.stream hfault
  cases hp.step hs with
  | running _ hrefines => exact ⟨_, hrefines, haccepted⟩
  | tooLong _ hop _ _ => cases hop
  | failed _ hasserted =>
    subst hasserted
    cases hrunning

theorem Inv.step (h : Inv s) (hop : Undisturbed s op) (hs : s.step op = some t) : Inv t := by
  have henabled := enabled_of_step hs
  unfold OffLoopSend.step at hs
  rw [if_pos henabled] at hs
  match op with
  | .send inLoop buf len =>
    obtain ⟨held, hread, rfl⟩ := Option.map_eq_some_iff.mp hs
    cases inLoop with
    | true =>
      refine h.fn henabled.1 hread (fun _ htask => htask) (List.perm_middle.trans ?_)
      exact (h.calls.cons held).trans (List.perm_append_singleton held s.calls).symm
    | false => exact h.queueInLoop hread
  | .store a value =>
    cases hs
    exact h.store hop
  | .task k =>
    obtain ⟨task, htask, rfl⟩ := Option.map_eq_some_iff.mp hs
    obtain ⟨hk, rfl⟩ := List.getElem?_eq_some_iff.mp htask
    have hread := h.queue s.queue[k] (List.getElem_mem hk)
    have htaken : (s.queue[k].held :: (s.queue.eraseIdx k).map SendTask.held).Perm
        (s.queue.map SendTask.held) :=
      (List.getElem_cons_eraseIdx_perm hk).map SendTask.held
    exact h.fn henabled.1 hread (fun _ hother => List.mem_of_mem_eraseIdx hother)
      ((htaken.append_left _).trans h.calls)
  | .pollOut result =>
    obtain ⟨stream, hstream, rfl⟩ := Option.map_eq_some_iff.mp hs
    exact h.pollOut henabled.1 hstream

/-- A closure that reads anything but what its `Buf` pointed to is not faithful. -/
theorem not_faithful_fn (h : s.memory.read buf len ≠ some held) : ¬ Faithful (s.fn buf len held) := by
  intro hfaithful
  unfold OffLoopSend.fn at hfaithful
  cases hread : s.memory.read buf len with
  | none =>
    rw [hread] at hfaithful
    exact Bool.noConfusion hfaithful.valid
  | some bytes =>
    rw [hread] at hfaithful
    have happend := hfaithful.appends (bytes, held) (List.mem_append_right _ List.mem_cons_self)
    exact h (hread.trans (congrArg some happend))

/-- The loop may run a closure at once whose bytes have changed. -/
theorem breaks_of_disturbed (h : Inv s) (hop : ¬ Undisturbed s op) (hs : s.step op = some t) :
    Machine.Breaks OffLoopSend.step Faithful Queued t := by
  have henabled := enabled_of_step hs
  unfold OffLoopSend.step at hs
  rw [if_pos henabled] at hs
  match op with
  | .send _ _ _ => exact absurd trivial hop
  | .task _ => exact absurd trivial hop
  | .pollOut _ => exact absurd trivial hop
  | .store a value =>
    cases hs
    unfold Undisturbed at hop
    push Not at hop
    obtain ⟨task, htask, hcovers, hchanged⟩ := hop
    obtain ⟨k, hk, hat⟩ := List.mem_iff_getElem.mp htask
    have hread : Memory.read (Function.update s.memory a value) task.buf task.len ≠ some task.held := by
      intro hsame
      have hvalue := Memory.eq_of_read (h.queue task htask) hsame hcovers.1 hcovers.2
      rw [Function.update_self] at hvalue
      exact hchanged hvalue
    have hrun := step_task (s := { s with memory := Function.update s.memory a value }) henabled.1 henabled.2
      (List.getElem?_eq_some_iff.mpr ⟨hk, hat⟩)
    exact .of_step ⟨k, rfl⟩ hrun (Machine.breaks_of_not (not_faithful_fn hread))

/-- Both paths append the bytes that the caller's buffer held when `send` was called, whichever closures the
loop runs next, in exactly those runs in which no byte changes that a queued closure will read. -/
theorem robust_iff_undisturbed (writing : Bool) (memory : Memory) (ops : List Op) :
    Machine.Robust step Faithful Queued (initial writing memory) ops ↔
      Machine.Meets step Undisturbed (initial writing memory) ops := by
  have hqueued : ∀ s op, Queued op → Undisturbed s op := by
    rintro s op ⟨k, rfl⟩
    trivial
  exact Machine.robust_iff_meets (I := Inv) (fun _ h => h.faithful) hqueued
    (fun _ _ _ h hop hs => h.step hop hs) (fun _ _ _ h hop hs => breaks_of_disturbed h hop hs)
    (inv_initial writing memory)

/-- The caller overwrites its byte once `send` has returned. -/
theorem appends_overwritten :
    ¬ ∀ (writing : Bool) (memory : Memory) (ops : List Op),
      Machine.Always step Faithful (initial writing memory) ops := by
  intro h
  have hrun := h false (fun _ => some 1) [.send false 0 1, .store 0 (some 2), .task 0]
  exact absurd ((hrun.of_run rfl).appends _ List.mem_cons_self) (by decide)

end OffLoopSend

end Hulatang
