import Mathlib.Algebra.GroupWithZero.Nat
import Mathlib.Tactic.SplitIfs
import Hulatang.Lib.Machine
import Hulatang.Lib.Pipe
import Hulatang.Base.Buffer

/-!
# The outgoing byte stream on Linux

A connected `TCPConnection` on the `UnixReactor`: `send` on the loop thread, which appends to
`sendBuffer` and asks for `POLLOUT`, and `handleWrite`, which writes what the socket takes and retrieves
it. The implementation refines a `Pipe`, and asks for `POLLOUT` as long as anything is queued: nothing
resets `kWriteEvent` on Linux.

What has been sent and what has been written is read off the labels of a run, so `Intact` compares the
connection with its run. A run ends with the first operation that faults. A `send` throws only where the
vector would have to be longer than it may be, and leaves the buffer as it was.
-/

namespace Hulatang

/-- What a `write` of the readable bytes returns. -/
inductive WriteResult
  /-- The number of bytes that the socket has taken. -/
  | wrote (n : ℕ)
  /-- `EAGAIN`. -/
  | again
  /-- Another error. -/
  | error
  deriving DecidableEq

/-- How many bytes the socket has taken. -/
def WriteResult.taken : WriteResult → ℕ
  | wrote n => n
  | again | error => 0

/-- The sending half of a connection. -/
structure SendStream where
  sendBuffer : Buffer
  /-- `kWriteEvent` of the channel's flags. -/
  writing : Bool
  /-- What the socket has taken. -/
  written : List NoInit
  /-- How the last operation has failed, if it has. -/
  fault : Option Fault
  deriving DecidableEq

namespace SendStream

/-- A connection that has just been established. A client's channel comes with the connector's flags. -/
def initial (writing : Bool) : SendStream where
  sendBuffer := .ofSize Buffer.kInitialSize
  writing := writing
  written := []
  fault := none

/-- `TCPConnection::send` on the loop thread. -/
def send (s : SendStream) (buf : Buf) : SendStream :=
  match s.sendBuffer.append buf.buf with
  | .error fault => { s with fault := some fault }
  | .ok sendBuffer =>
    let s := { s with sendBuffer := sendBuffer }
    -- The loop is told only where it has not been asked before.
    if s.writing then s else { s with writing := true }

/-- `writeBuf->retrieve(num)`. -/
def retrieve (s : SendStream) (num : ℕ) : SendStream :=
  match s.sendBuffer.retrieve num with
  | .error fault => { s with fault := some fault }
  | .ok sendBuffer => { s with sendBuffer := sendBuffer }

/-- `UnixReactor::handleWrite`. The connection has no `writeCallback`, and an error other than `EAGAIN`
closes the connection and retrieves `-1`. -/
def handleWrite (s : SendStream) : WriteResult → SendStream
  | .wrote n => { s with written := s.written ++ s.sendBuffer.toStringView.take n }.retrieve n
  | .again => s
  | .error => s.retrieve (2^64 - 1)

/-- The steps of a run. -/
inductive Op
  | send (buf : Buf)
  | pollOut (result : WriteResult)
  deriving DecidableEq

/-- One step. `POLLOUT` is reported to a channel that has asked for it, and the socket takes no more bytes
than there are. -/
def step (s : SendStream) (op : Op) : Option SendStream :=
  if s.fault = none then
    match op with
    | .send buf => some (s.send buf)
    | .pollOut result =>
      if s.writing = true ∧ result.taken ≤ s.sendBuffer.readableBytes then
        some (s.handleWrite result)
      else none
  else none

/-- What has been passed to `send`. -/
def Op.passed : Op → List UInt8
  | send buf => buf.buf
  | pollOut _ => []

/-- How many bytes the socket has taken in a step. -/
def Op.taken : Op → ℕ
  | send _ => 0
  | pollOut result => result.taken

/-- The byte strings that a run has passed to `send`, one after the other. -/
def passed (ops : List Op) : List UInt8 := (ops.map Op.passed).flatten

/-- How many bytes the socket has taken in a run. -/
def taken (ops : List Op) : ℕ := (ops.map Op.taken).sum

/-- After the run, no byte is lost, repeated or reordered, and the loop is asked for `POLLOUT` as long as one
is queued. -/
structure Intact (s : SendStream) (ops : List Op) : Prop where
  conserved : s.written ++ s.sendBuffer.toStringView = (passed ops).map some
  taken : s.written.length = taken ops
  interested : s.sendBuffer.toStringView ≠ [] → s.writing = true

/-- The connection implements the pipe. -/
structure Refines (s : SendStream) (p : Pipe UInt8) : Prop where
  wellFormed : s.sendBuffer.WellFormed
  delivered : s.written = p.delivered.map some
  queued : s.sendBuffer.toStringView = p.queued.map some
  interested : p.queued ≠ [] → s.writing = true

theorem refines_initial (writing : Bool) : Refines (initial writing) .empty := by
  have hwf : (Buffer.ofSize Buffer.kInitialSize).WellFormed :=
    Buffer.wellFormed_ofSize (by decide)
  exact ⟨hwf, rfl, Buffer.toStringView_ofSize, fun h => absurd rfl h⟩

/-- Where something is queued, the loop is asked for `POLLOUT`. -/
theorem Refines.interested_of_view {s : SendStream} {p : Pipe UInt8} (h : Refines s p)
    (hqueued : s.sendBuffer.toStringView ≠ []) : s.writing = true := by
  refine h.interested ?_
  rintro hnil
  rw [h.queued, hnil] at hqueued
  exact hqueued rfl

/-- What has been failed with does not matter to the pipe. -/
theorem Refines.fail {s : SendStream} {p : Pipe UInt8} (h : Refines s p) (fault : Fault) :
    Refines { s with fault := some fault } p :=
  ⟨h.wellFormed, h.delivered, h.queued, h.interested⟩

/-- The connection implements one pipe. -/
theorem Refines.unique {s : SendStream} {p q : Pipe UInt8} (h : Refines s p) (h' : Refines s q) : p = q := by
  have hinjective : Function.Injective (List.map (some : UInt8 → NoInit)) :=
    List.map_injective_iff.mpr fun _ _ => Option.some.inj
  have hdelivered : p.delivered = q.delivered := hinjective (h.delivered.symm.trans h'.delivered)
  have hqueued : p.queued = q.queued := hinjective (h.queued.symm.trans h'.queued)
  exact Pipe.eq_of_places hdelivered hqueued

/-- What a step makes of the pipe. -/
def next (p : Pipe UInt8) : Op → Pipe UInt8
  | .send buf => p.push buf.buf
  | .pollOut result => p.pop result.taken

/-- How a step ends: with the pipe's next state, or with a fault and nothing else. -/
inductive Stepped (s s' : SendStream) (p : Pipe UInt8) (op : Op) : Prop
  | running (hrunning : s'.fault = none) (hrefines : Refines s' (next p op))
  /-- The vector would have to be longer than it may be. -/
  | tooLong (buf : Buf) (hop : op = .send buf) (hbig : maxSize < s.sendBuffer.writerIndex + buf.buf.length)
      (hthrown : s' = { s with fault := some .lengthError })
  /-- `-1` bytes are retrieved. -/
  | failed (hop : op = .pollOut .error) (hasserted : s' = { s with fault := some .assertion })

variable {s s' : SendStream} {p : Pipe UInt8}

/-- `send` is a push, or throws and changes nothing. -/
theorem Refines.send (h : Refines s p) (hrunning : s.fault = none) (buf : Buf) :
    Stepped s (s.send buf) p (.send buf) := by
  unfold SendStream.send
  rcases h.wellFormed.append buf.len_le with ⟨sendBuffer, happend, hwf, hview⟩ | ⟨hfault, hbig⟩
  · have hpushed : sendBuffer.toStringView = (p.push buf.buf).queued.map some := by
      rw [hview, h.queued]
      exact List.map_append.symm
    rw [happend]
    dsimp only
    split_ifs with hw
    · exact .running hrunning ⟨hwf, h.delivered, hpushed, fun _ => hw⟩
    · exact .running hrunning ⟨hwf, h.delivered, hpushed, fun _ => rfl⟩
  · rw [hfault]
    exact .tooLong buf rfl hbig rfl

/-- A `write` that takes `n` bytes is a delivery of them. -/
theorem Refines.wrote (h : Refines s p) {n : ℕ} (hn : n ≤ s.sendBuffer.readableBytes) :
    Refines (s.handleWrite (.wrote n)) (p.pop n) ∧ (s.handleWrite (.wrote n)).fault = s.fault := by
  obtain ⟨sendBuffer, hretrieve, hwf, hview⟩ := h.wellFormed.retrieve hn
  have hdone : s.handleWrite (.wrote n) =
      { s with
        written := s.written ++ s.sendBuffer.toStringView.take n, sendBuffer := sendBuffer } := by
    unfold SendStream.handleWrite SendStream.retrieve
    dsimp only
    rw [hretrieve]
  rw [hdone]
  refine ⟨⟨hwf, ?_, ?_, fun hrest => h.interested ?_⟩, rfl⟩
  · show s.written ++ s.sendBuffer.toStringView.take n = (p.delivered ++ p.queued.take n).map some
    rw [h.delivered, h.queued, List.map_append, List.map_take]
  · show sendBuffer.toStringView = (p.queued.drop n).map some
    rw [hview, h.queued, List.map_drop]
  -- What is queued behind the `write` was queued before it, and nothing resets the flag.
  · rintro hnil
    refine hrest ?_
    show p.queued.drop n = []
    rw [hnil, List.drop_nil]

/-- A `write` that fails for good leaves only the assertion of `retrieve`. -/
theorem Refines.error (h : Refines s p) : s.handleWrite .error = { s with fault := some .assertion } := by
  have hlength := h.wellFormed.length_lt
  have hreadable := h.wellFormed.readableBytes_eq
  have hwriter := h.wellFormed.writer_le
  -- As a `size_t`, `-1` is more than any buffer holds.
  have hfault : s.sendBuffer.retrieve (2^64 - 1) = .error .assertion := if_neg (by omega)
  unfold SendStream.handleWrite SendStream.retrieve
  dsimp only
  rw [hfault]

/-- Nothing has failed before a step is taken. -/
theorem fault_of_step {op : Op} (hs : s.step op = some s') : s.fault = none := by
  by_contra hne
  unfold SendStream.step at hs
  rw [if_neg hne] at hs
  cases hs

theorem step_send {buf : Buf} (hs : s.step (.send buf) = some s') : s' = s.send buf := by
  have hrunning := fault_of_step hs
  unfold SendStream.step at hs
  rw [if_pos hrunning] at hs
  exact (Option.some.inj hs).symm

theorem step_pollOut {result : WriteResult} (hs : s.step (.pollOut result) = some s') :
    s.writing = true ∧ result.taken ≤ s.sendBuffer.readableBytes ∧ s' = s.handleWrite result := by
  have hrunning := fault_of_step hs
  unfold SendStream.step at hs
  rw [if_pos hrunning] at hs
  dsimp only at hs
  split_ifs at hs with hout
  exact ⟨hout.1, hout.2, (Option.some.inj hs).symm⟩

/-- Every step is one of the pipe, or fails. -/
theorem Refines.step {op : Op} (h : Refines s p) (hs : s.step op = some s') : Stepped s s' p op := by
  have hrunning := fault_of_step hs
  cases op with
  | send buf => exact step_send hs ▸ h.send hrunning buf
  | pollOut result =>
    obtain ⟨-, htaken, rfl⟩ := step_pollOut hs
    cases result with
    | wrote n =>
      obtain ⟨hrefines, hfault⟩ := h.wrote htaken
      exact .running (hfault.trans hrunning) hrefines
    | again =>
      refine .running hrunning ?_
      show Refines s (p.pop 0)
      rw [p.pop_zero]
      exact h
    | error => exact .failed rfl h.error

/-! ## Runs -/

theorem passed_concat (ops : List Op) (op : Op) : passed (ops ++ [op]) = passed ops ++ op.passed := by
  unfold passed
  rw [List.map_append, List.flatten_append, List.map_singleton, List.flatten_singleton]

theorem taken_concat (ops : List Op) (op : Op) : taken (ops ++ [op]) = taken ops + op.taken := by
  unfold taken
  rw [List.map_append, List.sum_append, List.map_singleton, List.sum_singleton]

/-- The pipe that a run has come to: what it has accepted, and how much it has delivered, is what the labels
say. -/
structure Carries (s : SendStream) (ops : List Op) (p : Pipe UInt8) : Prop where
  refines : Refines s p
  accepted : p.accepted = passed ops
  delivered : p.delivered.length = taken ops

theorem carries_initial (writing : Bool) : Carries (initial writing) [] .empty :=
  ⟨refines_initial writing, rfl, rfl⟩

variable {ops : List Op}

theorem Carries.intact (h : Carries s ops p) : Intact s ops := by
  refine ⟨?_, ?_, fun hqueued => h.refines.interested_of_view hqueued⟩
  · rw [h.refines.delivered, h.refines.queued, ← List.map_append, p.conserved, h.accepted]
  · rw [h.refines.delivered, List.length_map, h.delivered]

/-- A step that the pipe takes too. -/
theorem Carries.next {op : Op} (h : Carries s ops p) (hs : s.step op = some s')
    (hrefines : Refines s' (next p op)) : Carries s' (ops ++ [op]) (next p op) := by
  cases op with
  | send buf =>
    refine ⟨hrefines, ?_, ?_⟩
    · rw [passed_concat, ← h.accepted]
      rfl
    · rw [taken_concat, ← h.delivered]
      rfl
  | pollOut result =>
    obtain ⟨-, htaken, -⟩ := step_pollOut hs
    -- The socket takes no more than is queued, so the pipe delivers as much as it has taken.
    rw [← h.refines.wellFormed.length_toStringView, h.refines.queued, List.length_map] at htaken
    refine ⟨hrefines, ?_, ?_⟩
    · rw [passed_concat, ← h.accepted]
      exact (List.append_nil _).symm
    · rw [taken_concat, ← h.delivered]
      show (p.delivered ++ p.queued.take result.taken).length = _
      rw [List.length_append, List.length_take, Nat.min_eq_left htaken]
      rfl

/-- How a run ends. -/
inductive Ended (s : SendStream) (ops : List Op) : Prop
  | running (hrunning : s.fault = none) (hcarries : ∃ p, Carries s ops p)
  /-- The last call of `send` has thrown. -/
  | tooLong (before : List Op) (buf : Buf) (hops : ops = before ++ [.send buf])
      (hfault : s.fault = some .lengthError) (hbig : maxSize < s.sendBuffer.writerIndex + buf.buf.length)
      (hcarries : ∃ p, Carries s before p)
  /-- The last `write` has failed. -/
  | failed (before : List Op) (hops : ops = before ++ [.pollOut .error])
      (hfault : s.fault = some .assertion) (hcarries : ∃ p, Carries s before p)

/-- Every run ends in one of the three ways. -/
theorem ended_of_run {writing : Bool} (hrun : Machine.run step (initial writing) ops = some s) :
    Ended s ops := by
  refine Machine.run_history (I := fun ops s => Ended s ops) (fun ops s op s' h hs => ?_)
    (.running rfl ⟨_, carries_initial writing⟩) hrun
  cases h with
  | running hrunning hcarries =>
    obtain ⟨p, hp⟩ := hcarries
    cases hp.refines.step hs with
    | running hrunning' hrefines => exact .running hrunning' ⟨_, hp.next hs hrefines⟩
    | tooLong buf hop hbig hthrown =>
      subst hop hthrown
      exact .tooLong ops buf rfl rfl hbig ⟨p, hp.refines.fail .lengthError, hp.accepted, hp.delivered⟩
    | failed hop hasserted =>
      subst hop hasserted
      exact .failed ops rfl rfl ⟨p, hp.refines.fail .assertion, hp.accepted, hp.delivered⟩
  -- No step is taken behind a fault.
  | tooLong _ _ _ hfault _ _ =>
    rw [fault_of_step hs] at hfault
    cases hfault
  | failed _ _ hfault _ =>
    rw [fault_of_step hs] at hfault
    cases hfault

/-- How a run whose writes do not fail leaves the stream: intact, also where the last call of `send` has
thrown, for which there was no room. -/
inductive Outcome (s : SendStream) (ops : List Op) : Prop
  | returned (hrunning : s.fault = none) (hintact : Intact s ops)
  | tooLong (before : List Op) (buf : Buf) (hops : ops = before ++ [.send buf])
      (hfault : s.fault = some .lengthError) (hbig : maxSize < s.sendBuffer.writerIndex + buf.buf.length)
      (hintact : Intact s before)

/-- The outgoing byte stream is intact after every run whose writes succeed, in full or in part, or fail with
`EAGAIN`. -/
theorem intact_of_writes (writing : Bool) (ops : List Op) (s : SendStream)
    (hops : ∀ op ∈ ops, op ≠ .pollOut .error) (hrun : Machine.run step (initial writing) ops = some s) :
    Outcome s ops := by
  cases ended_of_run hrun with
  | running hrunning hcarries =>
    obtain ⟨p, hp⟩ := hcarries
    exact .returned hrunning hp.intact
  | tooLong before buf hlast hfault hbig hcarries =>
    obtain ⟨p, hp⟩ := hcarries
    exact .tooLong before buf hlast hfault hbig hp.intact
  | failed before hlast hfault hcarries =>
    refine absurd rfl (hops (.pollOut .error) ?_)
    rw [hlast]
    exact List.mem_append_right before List.mem_cons_self

/-- Two sends around a partial write, and one that would block. -/
def partialWrite : List Op :=
  [.send ⟨[1, 2, 3], by decide⟩, .pollOut (.wrote 2), .send ⟨[4], by decide⟩, .pollOut .again,
    .pollOut (.wrote 2)]

theorem intact_partial_write :
    ∃ s, Machine.run step (initial false) partialWrite = some s ∧ Outcome s partialWrite := by
  have hsome : (Machine.run step (initial false) partialWrite).isSome = true := by decide +kernel
  obtain ⟨s, hs⟩ := Option.isSome_iff_exists.mp hsome
  exact ⟨s, hs, intact_of_writes false partialWrite s (by decide) hs⟩

end SendStream

end Hulatang
