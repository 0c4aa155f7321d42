import Mathlib.Algebra.Ring.Nat
import Hulatang.Io.SendStream

/-!
# Write interest on Linux

`send` asks for `POLLOUT`, and nothing on Linux takes that back: `UnixReactor::handleWrite` retrieves what
has been written and leaves `kWriteEvent` as it is. So between events the channel is writing exactly when
something is queued, as long as no event writes everything that is queued (`interest_iff`). A client's
channel is writing from the beginning.

An event is one call of `handleEvent`: sends of the callback for what has been read, and then a `write`.
What happens between two events is a step of its own.
-/

namespace Hulatang

/-- The sending half of a connection, and whether an event has been handled. -/
structure WriteInterest where
  stream : SendStream
  handled : Bool
  deriving DecidableEq

namespace WriteInterest

def initial (writing : Bool) : WriteInterest := ⟨.initial writing, false⟩

/-- The steps of a run. -/
inductive Op
  | send (buf : Buf)
  /-- What is sent while the event is handled, and what `write` returns, where `POLLOUT` is reported. -/
  | event (sends : List Buf) (written : Option ℕ)
  deriving DecidableEq

/-- What a step does to the stream. -/
def Op.ops : Op → List SendStream.Op
  | send buf => [.send buf]
  | event sends written => sends.map .send ++ (written.map fun n => .pollOut (.wrote n)).toList

def Op.isEvent : Op → Bool
  | send _ => false
  | event _ _ => true

/-- One step, of which nothing has failed. -/
def step (s : WriteInterest) (op : Op) : Option WriteInterest :=
  (Machine.run SendStream.step s.stream op.ops).bind fun stream =>
    if stream.fault = none then some ⟨stream, s.handled || op.isEvent⟩ else none

/-- Since the first event the channel is writing exactly when something is queued. -/
def Interest (s : WriteInterest) : Prop :=
  s.handled = true → (s.stream.writing = true ↔ s.stream.sendBuffer.toStringView ≠ [])

def Op.sends : Op → List Buf
  | send buf => [buf]
  | event sends _ => sends

def Op.written : Op → ℕ
  | send _ => 0
  | event _ written => written.getD 0

/-- The bytes that are sent in a step. -/
def Op.sentBytes (op : Op) : ℕ := (op.sends.map fun buf => buf.buf.length).sum

/-- From the first event on, a step that finds the channel writing, or sends, leaves something queued. -/
def Leaves (s : WriteInterest) (op : Op) : Prop :=
  s.handled = true ∨ op.isEvent = true → s.stream.writing = true ∨ op.sends ≠ [] →
    op.written < s.stream.sendBuffer.toStringView.length + op.sentBytes

end WriteInterest

/-! ## What an event leaves -/

namespace SendStream

variable {s t : SendStream} {p : Pipe UInt8}

/-- A stream that has not failed. -/
structure Running (s : SendStream) : Prop where
  refines : ∃ p, Refines s p
  fault : s.fault = none

/-- A step that does not fail is one of the pipe. -/
theorem Running.stepped (h : Running s) {op : Op} (hs : s.step op = some t) (ht : t.fault = none) :
    ∃ p, Refines s p ∧ Refines t (next p op) := by
  obtain ⟨p, hp⟩ := h.refines
  cases hp.step hs with
  | running _ hrefines => exact ⟨p, hp, hrefines⟩
  | tooLong _ _ _ hthrown =>
    subst hthrown
    cases ht
  | failed _ hasserted =>
    subst hasserted
    cases ht

/-- A send that does not throw queues its bytes and asks for `POLLOUT`. -/
theorem Running.send (h : Running s) {buf : Buf} (hs : s.step (.send buf) = some t) (ht : t.fault = none) :
    Running t ∧ t.writing = true ∧
      t.sendBuffer.toStringView.length = s.sendBuffer.toStringView.length + buf.buf.length := by
  obtain ⟨p, hp, hpushed⟩ := h.stepped hs ht
  refine ⟨⟨⟨_, hpushed⟩, ht⟩, ?_, ?_⟩
  · have hsent := step_send hs
    subst hsent
    unfold SendStream.send at ht ⊢
    cases happend : s.sendBuffer.append buf.buf with
    | error fault =>
      rw [happend] at ht
      cases ht
    | ok sendBuffer =>
      dsimp only
      split_ifs with hw
      · exact hw
      · rfl
  · rw [hpushed.queued, hp.queued, List.length_map, List.length_map]
    exact List.length_append

/-- A `write` retrieves what it has taken, and nothing else. -/
theorem Running.wrote (h : Running s) {n : ℕ} (hs : s.step (.pollOut (.wrote n)) = some t)
    (ht : t.fault = none) :
    Running t ∧ t.writing = s.writing ∧ n ≤ s.sendBuffer.toStringView.length ∧
      t.sendBuffer.toStringView.length = s.sendBuffer.toStringView.length - n := by
  obtain ⟨p, hp, hpopped⟩ := h.stepped hs ht
  obtain ⟨-, hn, hwrite⟩ := step_pollOut hs
  refine ⟨⟨⟨_, hpopped⟩, ht⟩, ?_, ?_, ?_⟩
  · rw [hwrite]
    unfold SendStream.handleWrite SendStream.retrieve
    dsimp only
    cases s.sendBuffer.retrieve n <;> rfl
  · rw [hp.wellFormed.length_toStringView]
    exact hn
  · rw [hpopped.queued, hp.queued, List.length_map, List.length_map]
    exact List.length_drop

/-- Nothing is queued on a channel that is not writing. -/
theorem Running.queued_eq_nil (h : Running s) (hw : ¬ s.writing = true) : s.sendBuffer.toStringView = [] := by
  obtain ⟨p, hp⟩ := h.refines
  by_contra hne
  exact hw (hp.interested_of_view hne)

/-- A run that has not failed at its end has not failed before. -/
theorem fault_of_run {ops : List Op} (hs : Machine.run step s ops = some t) (ht : t.fault = none) :
    s.fault = none := by
  cases ops with
  | nil =>
    cases hs
    exact ht
  | cons op ops =>
    obtain ⟨u, hu, -⟩ := Machine.run_cons_eq_some hs
    exact fault_of_step hu

/-- Sends queue their bytes one after the other, and ask for `POLLOUT` if there are any. -/
theorem Running.sends (h : Running s) (bufs : List Buf)
    (hs : Machine.run step s (bufs.map .send) = some t) (ht : t.fault = none) :
    Running t ∧ (t.writing = true ↔ s.writing = true ∨ bufs ≠ []) ∧
      t.sendBuffer.toStringView.length =
        s.sendBuffer.toStringView.length + (bufs.map fun buf => buf.buf.length).sum := by
  induction bufs generalizing s with
  | nil =>
    cases hs
    exact ⟨h, by simp, rfl⟩
  | cons buf bufs ih =>
    obtain ⟨u, hu, hrest⟩ := Machine.run_cons_eq_some hs
    obtain ⟨hrunning, hwriting, hlength⟩ := h.send hu (fault_of_run hrest ht)
    obtain ⟨hdone, hwriting', hlength'⟩ := ih hrunning hrest
    refine ⟨hdone, ?_, ?_⟩
    · rw [hwriting', hwriting]
      simp
    · rw [hlength', hlength, List.map_cons, List.sum_cons]
      omega

end SendStream

namespace WriteInterest

variable {s t : WriteInterest} {op : Op}

/-- What a step does to the stream and to the flag. -/
structure Stepped (s t : WriteInterest) (op : Op) : Prop where
  running : SendStream.Running t.stream
  handled : t.handled = (s.handled || op.isEvent)
  writing : t.stream.writing = true ↔ s.stream.writing = true ∨ op.sends ≠ []
  written : op.written ≤ s.stream.sendBuffer.toStringView.length + op.sentBytes
  queued : t.stream.sendBuffer.toStringView.length =
    s.stream.sendBuffer.toStringView.length + op.sentBytes - op.written

theorem stepped_of_step (h : SendStream.Running s.stream) (hs : s.step op = some t) : Stepped s t op := by
  unfold step at hs
  obtain ⟨stream, hrun, hsettled⟩ := Option.bind_eq_some_iff.mp hs
  split_ifs at hsettled with hfault
  cases hsettled
  cases op with
  | send buf =>
    obtain ⟨hrunning, hwriting, hlength⟩ := h.sends [buf] hrun hfault
    exact ⟨hrunning, rfl, hwriting, Nat.zero_le _, hlength⟩
  | event sends written =>
    obtain ⟨u, hsends, hwrite⟩ := Machine.run_append_eq_some hrun
    cases written with
    | none =>
      cases hwrite
      obtain ⟨hrunning, hwriting, hlength⟩ := h.sends sends hsends hfault
      exact ⟨hrunning, rfl, hwriting, Nat.zero_le _, hlength⟩
    | some n =>
      obtain ⟨v, hv, hrest⟩ := Machine.run_cons_eq_some hwrite
      cases hrest
      obtain ⟨hrunning, hwriting, hlength⟩ := h.sends sends hsends (SendStream.fault_of_step hv)
      obtain ⟨hdone, hsame, hle, hlength'⟩ := hrunning.wrote hv hfault
      refine ⟨hdone, rfl, ?_, ?_, ?_⟩
      · rw [hsame]
        exact hwriting
      · rw [hlength] at hle
        exact hle
      · rw [hlength', hlength]
        rfl

/-- The channel is writing where something is queued, and only there since the first event. -/
structure Tracks (s : WriteInterest) : Prop where
  running : SendStream.Running s.stream
  interest : Interest s

theorem tracks_initial (writing : Bool) : Tracks (initial writing) :=
  ⟨⟨⟨_, SendStream.refines_initial writing⟩, rfl⟩, fun h => nomatch h⟩

/-- A step keeps the interest exactly when it leaves something queued. -/
theorem Tracks.step (h : Tracks s) (hs : s.step op = some t) :
    (Interest t ↔ Leaves s op) ∧ (Leaves s op → Tracks t) := by
  have hstepped := stepped_of_step h.running hs
  have hexact : Interest t ↔ Leaves s op := by
    have hlength : t.stream.sendBuffer.toStringView ≠ [] ↔
        op.written < s.stream.sendBuffer.toStringView.length + op.sentBytes := by
      rw [← List.length_pos_iff, hstepped.queued]
      omega
    unfold Interest Leaves
    rw [hstepped.handled, hstepped.writing, hlength, Bool.or_eq_true]
    refine forall_congr' fun _ => ⟨fun hiff => hiff.mp, fun hleaves => ⟨hleaves, fun hlt => ?_⟩⟩
    -- Whatever is queued or sent has set `kWriteEvent`.
    by_contra hidle
    obtain ⟨hwriting, hsends⟩ := not_or.mp hidle
    have hqueued := h.running.queued_eq_nil hwriting
    have hsent : op.sentBytes = 0 := by
      unfold Op.sentBytes
      rw [not_not.mp hsends]
      rfl
    rw [hqueued, hsent] at hlt
    exact absurd hlt (Nat.not_lt_zero _)
  exact ⟨hexact, fun hleaves => ⟨hstepped.running, hexact.mpr hleaves⟩⟩

/-- Between events the channel is writing exactly when something is queued, in exactly those runs whose
steps leave something queued: a connection of a server begins without `kWriteEvent`, one of a client with
it. -/
theorem interest_iff (writing : Bool) (ops : List Op) :
    Machine.Always step Interest (initial writing) ops ↔ Machine.Meets step Leaves (initial writing) ops := by
  have hstep : ∀ s op t, Tracks s → True → step s op = some t →
      (Interest t ↔ Leaves s op) ∧ (Leaves s op → Tracks t) := fun _ _ _ h _ hs => h.step hs
  have hdomain : Machine.Meets step (fun _ _ => True) (initial writing) ops :=
    Machine.meets_of_labels fun _ _ => trivial
  exact Machine.always_iff_meets (fun _ h => h.interest) hstep (tracks_initial writing) hdomain

/-- A run that ends between events with a channel that is writing and nothing queued. -/
theorem not_always_of_run {writing : Bool} {ops : List Op}
    (h : (Machine.run step (initial writing) ops).map
      (fun t => (t.handled, t.stream.writing, t.stream.sendBuffer.toStringView)) = some (true, true, [])) :
    ¬ Machine.Always step Interest (initial writing) ops := by
  intro halways
  obtain ⟨t, ht, hends⟩ := Option.map_eq_some_iff.mp h
  obtain ⟨hhandled, hwriting, hview⟩ := Prod.mk.inj hends |>.imp_right Prod.mk.inj
  exact (halways.of_run ht hhandled).mp hwriting hview

/-- A connection of a server stays writing when its only byte has been written. -/
theorem writing_after_written : ¬ ∀ ops, Machine.Always step Interest (initial false) ops := by
  intro h
  have hrun := h [.send ⟨[1], by decide⟩, .event [] (some 1)]
  exact not_always_of_run (by decide +kernel) hrun

/-- A connection of a client is writing from the beginning, with nothing to write. -/
theorem writing_once_connected : ¬ ∀ ops, Machine.Always step Interest (initial true) ops := by
  intro h
  exact not_always_of_run (by decide +kernel) (h [.event [] (some 0)])

end WriteInterest

end Hulatang
