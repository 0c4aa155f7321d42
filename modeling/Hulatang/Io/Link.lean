import Mathlib.Algebra.BigOperators.Group.List.Basic
import Mathlib.Algebra.GroupWithZero.Nat
import Hulatang.Io.UnixReactor

/-!
# A byte stream from one end to the other

The outgoing half of one connection, the incoming half of its peer's, and what the kernels hold between
the two sockets. `Delivers` is what the two programs see of it over every interleaving of both loops: the
callback of the receiver retrieves what the sender has sent, in order, and what it has not retrieved yet
is in one of the three places. A link is two pipes in series (`Pipe.join`).

`drains` is about what follows when nothing more is sent: the events that move bytes end, and where no
such event is left the receiver has all of them. No event of the sender is reported that its channel has not
asked for.
-/

namespace Hulatang

/-- One direction of a connection between two programs. -/
structure Link where
  sender : SendStream
  /-- What the sender's socket has taken and `readv` of the receiver has not delivered. -/
  inFlight : List NoInit
  receiver : ReadStream

namespace Link

def initial (writing : Bool) : Link where
  sender := .initial writing
  inFlight := []
  receiver := .initial

/-- The steps of a run, on the loop of the sender and on that of the receiver. -/
inductive Op
  | send (buf : Buf)
  | pollOut (result : WriteResult)
  /-- `readv` delivers bytes. -/
  | pollIn (bytes : List UInt8)
  /-- `readv` fails, or comes to the end of the stream. -/
  | pollInEnd (err : Option Errno)
  | retrieve (n : ℕ)
  deriving DecidableEq

/-- What the socket takes of a `write`. -/
def taken (s : SendStream) (result : WriteResult) : List NoInit := s.sendBuffer.toStringView.take result.taken

/-- What `readv` returns when it delivers nothing. -/
def ended : Option Errno → ReadResult
  | none => .read []
  | some err => .failed err

/-- One step of one of the halves. `readv` delivers what is in flight, in order. -/
def step (l : Link) : Op → Option Link
  | .send buf => (l.sender.step (.send buf)).map fun sender => { l with sender := sender }
  | .pollOut result =>
    (l.sender.step (.pollOut result)).map fun sender =>
      { l with sender := sender, inFlight := l.inFlight ++ taken l.sender result }
  | .pollIn bytes =>
    if l.inFlight.take bytes.length = bytes.map some then
      (l.receiver.step (.read bytes)).map fun receiver =>
        { l with receiver := receiver, inFlight := l.inFlight.drop bytes.length }
    else none
  | .pollInEnd err =>
    if l.receiver.reactor.fault = none then
      some { l with receiver := { l.receiver with reactor := l.receiver.reactor.handleRead (ended err) } }
    else none
  | .retrieve n => (l.receiver.step (.retrieve n)).map fun receiver => { l with receiver := receiver }

/-- What is in the receiver's buffer, in flight and in the sender's buffer. -/
def underway (l : Link) : List NoInit :=
  l.receiver.reactor.readBuf.toStringView ++ l.inFlight ++ l.sender.sendBuffer.toStringView

/-- The step of the sender, if it is one. -/
def Op.sender : Op → Option SendStream.Op
  | send buf => some (.send buf)
  | pollOut result => some (.pollOut result)
  | pollIn _ | pollInEnd _ | retrieve _ => none

/-- How many bytes the callback retrieves in a step. -/
def Op.retrieved : Op → ℕ
  | retrieve n => n
  | send _ | pollOut _ | pollIn _ | pollInEnd _ => 0

/-- How many bytes the callback has retrieved in a run. -/
def retrieved (ops : List Op) : ℕ := (ops.map Op.retrieved).sum

/-- What is retrieved was sent first, and what is sent and not retrieved is under way, as long as `handleRead`
has not failed. -/
structure Delivers (l : Link) (sent : List UInt8) : Prop where
  ordered : l.receiver.retrieved <+: sent.map some
  conserved : l.receiver.reactor.fault = none → l.receiver.retrieved ++ l.underway = sent.map some

/-- The link implements the pipe. -/
structure Refines (l : Link) (p : Pipe UInt8) : Prop where
  delivered : l.receiver.retrieved = p.delivered.map some
  queued : l.underway = p.queued.map some

/-- The sender implements the pipe `p`; what `p` has delivered is what the receiver has received, and
`between`. -/
structure Carries (l : Link) (p : Pipe UInt8) (between : List UInt8) : Prop where
  sender : SendStream.Refines l.sender p
  inFlight : l.inFlight = between.map some
  received : l.receiver.received ++ between = p.delivered
  retrieved : l.receiver.retrieved <+: l.receiver.received.map some
  receiver : l.receiver.reactor.fault = none → ∃ q, ReadStream.Refines l.receiver q

theorem carries_initial (writing : Bool) : Carries (initial writing) .empty [] :=
  ⟨SendStream.refines_initial writing, rfl, rfl, List.nil_prefix, fun _ => ⟨_, ReadStream.refines_initial⟩⟩

variable {l l' : Link} {p : Pipe UInt8} {between : List UInt8} {op : Op}

/-- The two pipes in series. -/
theorem Carries.refines (h : Carries l p between) {q : Pipe UInt8} (hq : ReadStream.Refines l.receiver q) :
    ∃ r, Refines l r ∧ r.accepted = p.accepted := by
  have hfed : q.accepted ++ between = p.delivered := hq.accepted ▸ h.received
  -- What the sender's pipe has delivered and the receiver's has not accepted is in flight.
  refine ⟨p.join q between hfed, ⟨hq.delivered, ?_⟩, rfl⟩
  show _ = (q.queued ++ between ++ p.queued).map some
  rw [List.map_append, List.map_append]
  unfold underway
  rw [hq.queued, h.inFlight, h.sender.queued]

theorem Refines.conserved (h : Refines l p) : l.receiver.retrieved ++ l.underway = p.accepted.map some := by
  rw [h.delivered, h.queued, ← List.map_append, p.conserved]

theorem Carries.delivers (h : Carries l p between) : Delivers l p.accepted := by
  have hreceived : l.receiver.received <+: p.accepted :=
    (h.received ▸ List.prefix_append l.receiver.received between).trans p.delivered_prefix_accepted
  refine ⟨h.retrieved.trans (hreceived.map some), fun hrunning => ?_⟩
  obtain ⟨q, hq⟩ := h.receiver hrunning
  obtain ⟨r, hr, haccepted⟩ := h.refines hq
  rw [hr.conserved, haccepted]

/-! ## Every step -/

/-- A step of the sender that keeps its pipe, with what it has put in flight. -/
theorem Carries.of_sender (h : Carries l p between) {sender : SendStream} {p' : Pipe UInt8}
    {bytes : List UInt8} (hsender : SendStream.Refines sender p')
    (hdelivered : p'.delivered = p.delivered ++ bytes) :
    Carries { l with sender := sender, inFlight := l.inFlight ++ bytes.map some } p' (between ++ bytes) := by
  refine ⟨hsender, ?_, ?_, h.retrieved, h.receiver⟩
  · show l.inFlight ++ bytes.map some = _
    rw [h.inFlight, List.map_append]
  · show l.receiver.received ++ (between ++ bytes) = _
    rw [← List.append_assoc, h.received, hdelivered]

/-- A step of the sender that puts nothing in flight. -/
theorem Carries.of_sender_nil (h : Carries l p between) {sender : SendStream} {p' : Pipe UInt8}
    (hsender : SendStream.Refines sender p') (hdelivered : p'.delivered = p.delivered) :
    Carries { l with sender := sender } p' between := by
  have hnone : p'.delivered = p.delivered ++ [] := hdelivered.trans (List.append_nil _).symm
  have hstep := h.of_sender hsender hnone
  rwa [List.map_nil, List.append_nil, List.append_nil] at hstep

theorem Carries.send (h : Carries l p between) {buf : Buf} {sender : SendStream}
    (hs : l.sender.step (.send buf) = some sender) :
    ∃ p', Carries { l with sender := sender } p' between := by
  cases h.sender.step hs with
  | running _ hrefines => exact ⟨_, h.of_sender_nil hrefines rfl⟩
  | tooLong _ _ _ hthrown =>
    subst hthrown
    exact ⟨p, h.of_sender_nil (h.sender.fail .lengthError) rfl⟩
  | failed hop _ => cases hop

/-- Also where `write` fails and `-1` bytes are retrieved: the assertion stops the sender as it is. -/
theorem Carries.pollOut (h : Carries l p between) {result : WriteResult} {sender : SendStream}
    (hs : l.sender.step (.pollOut result) = some sender) :
    ∃ p' between', p'.accepted = p.accepted ∧
      Carries { l with sender := sender, inFlight := l.inFlight ++ taken l.sender result } p' between' := by
  have htaken : taken l.sender result = (p.queued.take result.taken).map some := by
    unfold taken
    rw [h.sender.queued, List.map_take]
  rw [htaken]
  cases h.sender.step hs with
  | running _ hrefines => exact ⟨p.pop result.taken, _, rfl, h.of_sender hrefines rfl⟩
  | tooLong _ hop _ _ => cases hop
  | failed hop hasserted =>
    cases hop
    subst hasserted
    exact ⟨p, between ++ [], rfl, h.of_sender (h.sender.fail .assertion) (List.append_nil _).symm⟩

theorem retrieved_prefix {r : ReadStream} {q : Pipe UInt8} (h : ReadStream.Refines r q) :
    r.retrieved <+: r.received.map some := by
  rw [h.delivered, h.accepted]
  exact q.delivered_prefix_accepted.map some

theorem Carries.pollIn (h : Carries l p between) {bytes : List UInt8} {receiver : ReadStream}
    (htake : l.inFlight.take bytes.length = bytes.map some)
    (hs : l.receiver.step (.read bytes) = some receiver) :
    Carries { l with receiver := receiver, inFlight := l.inFlight.drop bytes.length } p
      (between.drop bytes.length) := by
  obtain ⟨q, hq⟩ := h.receiver (ReadStream.running_of_step hs)
  have hbytes : between.take bytes.length = bytes := by
    rw [h.inFlight, ← List.map_take] at htake
    exact List.map_injective_iff.mpr (fun _ _ => Option.some.inj) htake
  have hnext := hq.read hs
  obtain ⟨-, -, rfl⟩ := ReadStream.step_read hs
  refine ⟨h.sender, ?_, ?_, ?_, fun hrunning => ?_⟩
  · show l.inFlight.drop bytes.length = _
    rw [h.inFlight, List.map_drop]
  · show l.receiver.received ++ bytes ++ between.drop bytes.length = _
    have hsplit := List.take_append_drop bytes.length between
    rw [hbytes] at hsplit
    rw [List.append_assoc, hsplit, h.received]
  · -- Neither the read nor the exception takes back what has been retrieved.
    show l.receiver.retrieved <+: (l.receiver.received ++ bytes).map some
    rw [List.map_append]
    exact h.retrieved.trans (List.prefix_append ..)
  · rcases hnext with hq' | hthrown
    · exact ⟨_, hq'⟩
    · rw [hthrown.thrown] at hrunning
      cases hrunning

/-- A `readv` that delivers nothing leaves the buffer as it is, or fails. -/
theorem Carries.pollInEnd (h : Carries l p between) (hrunning : l.receiver.reactor.fault = none)
    (err : Option Errno) :
    Carries { l with receiver := { l.receiver with reactor := l.receiver.reactor.handleRead (ended err) } } p
      between := by
  obtain ⟨q, hq⟩ := h.receiver hrunning
  refine ⟨h.sender, h.inFlight, h.received, h.retrieved, fun hrunning' => ?_⟩
  cases err with
  | none => exact ⟨q, hq.running, hq.wellFormed, hq.accepted, hq.delivered, hq.queued, hq.called, hq.writer⟩
  | some err =>
    by_cases hagain : err = EAGAIN
    · have hsame : l.receiver.reactor.handleRead (ended (some err)) = l.receiver.reactor := if_pos hagain
      rw [hsame]
      exact ⟨q, hq⟩
    · exact absurd hrunning' (UnixReactor.fault_handleRead hq.wellFormed hagain)

theorem Carries.retrieve (h : Carries l p between) {n : ℕ} {receiver : ReadStream}
    (hs : l.receiver.step (.retrieve n) = some receiver) :
    Carries { l with receiver := receiver } p between ∧
      receiver.retrieved.length = l.receiver.retrieved.length + n := by
  obtain ⟨q, hq⟩ := h.receiver (ReadStream.running_of_step hs)
  unfold ReadStream.step at hs
  rw [if_pos hq.running] at hs
  dsimp only at hs
  split_ifs at hs with hn
  cases hs
  -- A retrieval takes from the receiver's pipe, and leaves what that has accepted.
  have hq' := hq.retrieve hn
  have hreceived : (l.receiver.retrieve n).received = l.receiver.received := by
    rw [hq'.accepted, hq.accepted]
    rfl
  refine ⟨⟨h.sender, h.inFlight, ?_, retrieved_prefix hq', fun _ => ⟨_, hq'⟩⟩, ?_⟩
  · show (l.receiver.retrieve n).received ++ between = _
    rw [hreceived, h.received]
  · have hlength := hq.wellFormed.length_toStringView
    rw [hq.queued, List.length_map] at hlength
    rw [hq'.delivered, hq.delivered, List.length_map, List.length_map]
    show (q.delivered ++ q.queued.take n).length = _
    rw [List.length_append, List.length_take, hlength, Nat.min_eq_left hn]

theorem Carries.step (h : Carries l p between) (hs : l.step op = some l') :
    (∃ p' between', Carries l' p' between') ∧
      l'.receiver.retrieved.length = l.receiver.retrieved.length + op.retrieved := by
  cases op with
  | send buf =>
    obtain ⟨sender, hsender, rfl⟩ := Option.map_eq_some_iff.mp hs
    obtain ⟨p', hp'⟩ := h.send hsender
    exact ⟨⟨p', between, hp'⟩, rfl⟩
  | pollOut result =>
    obtain ⟨sender, hsender, rfl⟩ := Option.map_eq_some_iff.mp hs
    obtain ⟨p', between', -, hp'⟩ := h.pollOut hsender
    exact ⟨⟨p', between', hp'⟩, rfl⟩
  | pollIn bytes =>
    unfold Link.step at hs
    dsimp only at hs
    split_ifs at hs with htake
    obtain ⟨receiver, hreceiver, rfl⟩ := Option.map_eq_some_iff.mp hs
    refine ⟨⟨p, _, h.pollIn htake hreceiver⟩, ?_⟩
    obtain ⟨-, -, rfl⟩ := ReadStream.step_read hreceiver
    rfl
  | pollInEnd err =>
    unfold Link.step at hs
    dsimp only at hs
    split_ifs at hs with hrunning
    cases hs
    exact ⟨⟨p, between, h.pollInEnd hrunning err⟩, rfl⟩
  | retrieve n =>
    obtain ⟨receiver, hreceiver, rfl⟩ := Option.map_eq_some_iff.mp hs
    obtain ⟨hcarries, hlength⟩ := h.retrieve hreceiver
    exact ⟨⟨p, between, hcarries⟩, hlength⟩

/-! ## Runs -/

/-- Every run keeps the two pipes, and the callback has retrieved as much as it has asked for. -/
theorem carries_of_run {writing : Bool} {ops : List Op}
    (hrun : Machine.run step (initial writing) ops = some l) :
    (∃ p between, Carries l p between) ∧ l.receiver.retrieved.length = retrieved ops := by
  refine Machine.run_history
    (I := fun ops l => (∃ p between, Carries l p between) ∧ l.receiver.retrieved.length = retrieved ops)
    (fun ops l op l' h hs => ?_) ⟨⟨_, _, carries_initial writing⟩, rfl⟩ hrun
  obtain ⟨⟨p, between, hcarries⟩, hlength⟩ := h
  obtain ⟨hcarries', hlength'⟩ := hcarries.step hs
  refine ⟨hcarries', ?_⟩
  unfold retrieved at hlength ⊢
  rw [hlength', hlength, List.map_append, List.sum_append, List.map_singleton, List.sum_singleton]

/-- The sender has run through its own steps. -/
theorem sender_of_run {writing : Bool} {ops : List Op}
    (hrun : Machine.run step (initial writing) ops = some l) :
    Machine.run SendStream.step (.initial writing) (ops.filterMap Op.sender) = some l.sender := by
  refine Machine.run_project Link.sender (fun l op own l' hown hs => ?_)
    (fun l op l' hother hs => ?_) hrun
  · cases op with
    | send buf =>
      cases hown
      obtain ⟨sender, hsender, rfl⟩ := Option.map_eq_some_iff.mp hs
      exact hsender
    | pollOut result =>
      cases hown
      obtain ⟨sender, hsender, rfl⟩ := Option.map_eq_some_iff.mp hs
      exact hsender
    | pollIn _ => cases hown
    | pollInEnd _ => cases hown
    | retrieve _ => cases hown
  · cases op with
    | send _ => cases hother
    | pollOut _ => cases hother
    | pollIn bytes =>
      unfold Link.step at hs
      dsimp only at hs
      split_ifs at hs
      obtain ⟨receiver, -, rfl⟩ := Option.map_eq_some_iff.mp hs
      rfl
    | pollInEnd err =>
      unfold Link.step at hs
      dsimp only at hs
      split_ifs at hs
      cases hs
      rfl
    | retrieve n =>
      obtain ⟨receiver, -, rfl⟩ := Option.map_eq_some_iff.mp hs
      rfl

/-- The bytes that have been passed to `send` in a run of the link. -/
def passed (ops : List Op) : List UInt8 := SendStream.passed (ops.filterMap Op.sender)

/-- The pipe of the sender has accepted what its own steps have passed to it. -/
theorem Carries.accepted (h : Carries l p between) {ops : List SendStream.Op}
    (hsender : ∃ q, SendStream.Carries l.sender ops q) : p.accepted = SendStream.passed ops := by
  obtain ⟨q, hq⟩ := hsender
  rw [← hq.accepted, h.sender.unique hq.refines]

/-- What a run of the link has delivered: what has been passed to `send`, but for a last call that has
thrown. -/
inductive Outcome (l : Link) (ops : List Op) : Prop
  | returned (hfault : l.sender.fault ≠ some .lengthError) (hdelivers : Delivers l (passed ops))
  | tooLong (before : List SendStream.Op) (buf : Buf) (hops : ops.filterMap Op.sender = before ++ [.send buf])
      (hfault : l.sender.fault = some .lengthError)
      (hbig : maxSize < l.sender.sendBuffer.writerIndex + buf.buf.length)
      (hdelivers : Delivers l (SendStream.passed before))

/-- Whatever the two programs and the network do, the stream is delivered in order, and nothing is lost. Only
a `send` of more than the vector may hold throws, and its bytes are not delivered. -/
theorem delivers_of_run (writing : Bool) (ops : List Op) (l : Link)
    (hrun : Machine.run step (initial writing) ops = some l) :
    Outcome l ops ∧ l.receiver.retrieved.length = retrieved ops := by
  obtain ⟨⟨p, between, hcarries⟩, hlength⟩ := carries_of_run hrun
  refine ⟨?_, hlength⟩
  have hdelivers := hcarries.delivers
  cases SendStream.ended_of_run (sender_of_run hrun) with
  | running hrunning hsender =>
    rw [hcarries.accepted hsender] at hdelivers
    refine .returned (fun hfault => ?_) hdelivers
    cases hrunning.symm.trans hfault
  | tooLong before buf hlast hfault hbig hsender =>
    rw [hcarries.accepted hsender] at hdelivers
    exact .tooLong before buf hlast hfault hbig hdelivers
  | failed before hlast hfault hsender =>
    -- The last step of the sender has sent nothing.
    have hpassed : passed ops = SendStream.passed before := by
      unfold passed
      rw [hlast, SendStream.passed_concat]
      exact List.append_nil _
    rw [hcarries.accepted hsender, ← hpassed] at hdelivers
    refine .returned (fun hother => ?_) hdelivers
    cases hfault.symm.trans hother

/-- A write of two bytes of three, and a read that would block. -/
def twoOfThree : List Op := [.send ⟨[5, 6, 7], by decide⟩, .pollOut (.wrote 2), .pollInEnd (some EAGAIN)]

/-- What brings the three to the callback. -/
def arrivals : List Op := [.pollIn [5, 6], .pollOut (.wrote 1), .retrieve 1, .pollIn [7], .retrieve 2]

theorem delivers_three :
    ∃ l, Machine.run step (initial false) (twoOfThree ++ arrivals) = some l ∧
      Outcome l (twoOfThree ++ arrivals) ∧
      l.receiver.retrieved.length = retrieved (twoOfThree ++ arrivals) := by
  have hsome : (Machine.run step (initial false) (twoOfThree ++ arrivals)).isSome = true := by
    decide +kernel
  obtain ⟨l, hl⟩ := Option.isSome_iff_exists.mp hsome
  exact ⟨l, hl, delivers_of_run false _ l hl⟩

/-! ## What the loops do on their own -/

/-- The events that move bytes. -/
def Op.Moves : Op → Prop
  | .pollOut (.wrote n) | .retrieve n => 0 < n
  | .pollIn _ => True
  | .pollOut .again | .pollOut .error | .pollInEnd _ | .send _ => False

instance : DecidablePred Op.Moves
  | .pollOut (.wrote n) | .retrieve n => inferInstanceAs (Decidable (0 < n))
  | .pollIn _ => isTrue trivial
  | .pollOut .again | .pollOut .error | .pollInEnd _ | .send _ => isFalse id

/-- How far the bytes have come, each counted at each of the three places that it has left. -/
def progress (l : Link) : ℕ :=
  l.sender.written.length + l.receiver.received.length + l.receiver.retrieved.length

/-- Neither end has failed, and all that has been sent would fit a vector. -/
structure Healthy (l : Link) (sent : List UInt8) : Prop where
  carries : ∃ p between, Carries l p between ∧ p.accepted = sent
  running : l.sender.fault = none
  reading : l.receiver.reactor.fault = none
  fits : Buffer.kCheapPrepend + sent.length ≤ maxSize

variable {sent : List UInt8}

theorem Carries.length_received_le (h : Carries l p between) :
    l.receiver.received.length ≤ p.accepted.length := by
  have hdelivered := congrArg List.length h.received
  have hle := p.delivered_prefix_accepted.length_le
  rw [List.length_append] at hdelivered
  omega

/-- No byte has come further than to the callback. -/
theorem Carries.progress_le (h : Carries l p between) : l.progress ≤ 3 * p.accepted.length := by
  have hreceived := h.length_received_le
  have hretrieved := h.retrieved.length_le
  have hle := p.delivered_prefix_accepted.length_le
  unfold progress
  rw [h.sender.delivered, List.length_map]
  rw [List.length_map] at hretrieved
  omega

/-- A read of what has been sent does not fill the receiver's buffer. -/
theorem Carries.reading (h : Carries l p between) (hfits : Buffer.kCheapPrepend + p.accepted.length ≤ maxSize)
    {bytes : List UInt8} (htake : l.inFlight.take bytes.length = bytes.map some) {receiver : ReadStream}
    (hs : l.receiver.step (.read bytes) = some receiver) : receiver.reactor.fault = none := by
  have hcarries := h.pollIn htake hs
  obtain ⟨q, hq⟩ := h.receiver (ReadStream.running_of_step hs)
  rcases hq.read hs with hq' | hthrown
  · exact hq'.running
  -- The buffer would have to hold more than has been sent.
  · have hbig := hthrown.big
    have hle := hcarries.length_received_le
    dsimp only at hle
    omega

/-- A `write` that takes `n` bytes brings them further. -/
theorem Carries.wrote (h : Carries l p between) {n : ℕ} {sender : SendStream}
    (hs : l.sender.step (.pollOut (.wrote n)) = some sender) :
    sender.fault = none ∧ sender.written.length = l.sender.written.length + n := by
  obtain ⟨-, hn, rfl⟩ := SendStream.step_pollOut hs
  obtain ⟨hrefines, hfault⟩ := h.sender.wrote (n := n) hn
  have hlength := h.sender.wellFormed.length_toStringView
  have htaken : n ≤ l.sender.sendBuffer.readableBytes := hn
  rw [h.sender.queued, List.length_map] at hlength
  refine ⟨hfault.trans (SendStream.fault_of_step hs), ?_⟩
  rw [hrefines.delivered, h.sender.delivered, List.length_map, List.length_map]
  show (p.delivered ++ p.queued.take n).length = _
  rw [List.length_append, List.length_take, hlength, Nat.min_eq_left htaken]

/-- An event that moves bytes brings one of them further, and fails nothing. -/
theorem Healthy.move (h : Healthy l sent) (hop : op.Moves) (hs : l.step op = some l') :
    Healthy l' sent ∧ l.progress + 1 ≤ l'.progress := by
  obtain ⟨p, between, hcarries, haccepted⟩ := h.carries
  match op with
  | .pollOut (.wrote n) =>
    obtain ⟨sender, hsender, rfl⟩ := Option.map_eq_some_iff.mp hs
    obtain ⟨p', between', hsame, hcarries'⟩ := hcarries.pollOut hsender
    obtain ⟨hf, hwritten⟩ := hcarries.wrote hsender
    refine ⟨⟨⟨p', between', hcarries', hsame.trans haccepted⟩, hf, h.reading, h.fits⟩, ?_⟩
    have hpos : 0 < n := hop
    unfold progress
    dsimp only
    omega
  | .pollIn bytes =>
    unfold Link.step at hs
    dsimp only at hs
    split_ifs at hs with htake
    obtain ⟨receiver, hreceiver, rfl⟩ := Option.map_eq_some_iff.mp hs
    have hreading := hcarries.reading (haccepted ▸ h.fits) htake hreceiver
    refine ⟨⟨⟨p, _, hcarries.pollIn htake hreceiver, haccepted⟩, h.running, hreading, h.fits⟩, ?_⟩
    obtain ⟨hpos, -, rfl⟩ := ReadStream.step_read hreceiver
    have hlength := List.length_pos_iff.mpr hpos
    show _ ≤ l.sender.written.length + (l.receiver.received ++ bytes).length + l.receiver.retrieved.length
    rw [List.length_append]
    unfold progress
    omega
  | .retrieve n =>
    obtain ⟨receiver, hreceiver, rfl⟩ := Option.map_eq_some_iff.mp hs
    obtain ⟨hcarries', hlength⟩ := hcarries.retrieve hreceiver
    obtain ⟨q, hq⟩ := hcarries.receiver h.reading
    obtain ⟨hreceived, hreading⟩ := ReadStream.step_retrieve hq.wellFormed hreceiver
    refine ⟨⟨⟨p, between, hcarries', haccepted⟩, h.running, hreading, h.fits⟩, ?_⟩
    have hpos : 0 < n := hop
    unfold progress
    dsimp only
    rw [hreceived, hlength]
    omega

/-- So a run of such events is no longer than the way that is left. -/
theorem Healthy.moves {ops : List Op} (h : Healthy l sent) (hops : ∀ op ∈ ops, op.Moves)
    (hrun : Machine.run step l ops = some l') :
    Healthy l' sent ∧ l.progress + ops.length ≤ l'.progress := by
  induction ops generalizing l with
  | nil =>
    cases hrun
    exact ⟨h, Nat.le_refl _⟩
  | cons op ops ih =>
    obtain ⟨l₁, hs, hrun⟩ := Machine.run_cons_eq_some hrun
    obtain ⟨hop, hops⟩ := List.forall_mem_cons.mp hops
    obtain ⟨h₁, hprogress₁⟩ := h.move hop hs
    obtain ⟨h', hprogress⟩ := ih h₁ hops hrun
    refine ⟨h', ?_⟩
    rw [List.length_cons]
    omega

/-! While a byte is in one of the three places, an event that moves it is possible. -/

theorem enabled_wrote (hf : l.sender.fault = none) (hwriting : l.sender.writing = true) {n : ℕ}
    (hn : n ≤ l.sender.sendBuffer.readableBytes) : (l.step (.pollOut (.wrote n))).isSome = true := by
  have hs : l.sender.step (.pollOut (.wrote n)) = some (l.sender.handleWrite (.wrote n)) := by
    unfold SendStream.step
    rw [if_pos hf]
    exact if_pos ⟨hwriting, hn⟩
  show ((l.sender.step (.pollOut (.wrote n))).map _).isSome = true
  rw [hs]
  rfl

theorem enabled_pollIn (hf : l.receiver.reactor.fault = none) {bytes : List UInt8} (hpos : bytes ≠ [])
    (hle : bytes.length ≤ l.receiver.reactor.iovTotal)
    (htake : l.inFlight.take bytes.length = bytes.map some) : (l.step (.pollIn bytes)).isSome = true := by
  have hs : (l.receiver.step (.read bytes)).isSome = true := by
    unfold ReadStream.step
    rw [if_pos hf]
    dsimp only
    rw [if_pos ⟨hpos, hle⟩]
    rfl
  unfold Link.step
  dsimp only
  rw [if_pos htake, Option.isSome_map]
  exact hs

theorem enabled_retrieve (hf : l.receiver.reactor.fault = none) {n : ℕ}
    (hn : n ≤ l.receiver.reactor.readBuf.readableBytes) : (l.step (.retrieve n)).isSome = true := by
  have hs : l.receiver.step (.retrieve n) = some (l.receiver.retrieve n) := by
    unfold ReadStream.step
    rw [if_pos hf]
    exact if_pos hn
  show ((l.receiver.step (.retrieve n)).map _).isSome = true
  rw [hs]
  rfl

/-- `readv` is never called with no room at all. -/
theorem one_le_iovTotal (s : UnixReactor) : 1 ≤ s.iovTotal := by
  unfold UnixReactor.iovTotal extraSize
  split_ifs <;> omega

theorem one_le_readableBytes {b : Buffer} (hb : b.WellFormed) (hne : b.toStringView ≠ []) :
    1 ≤ b.readableBytes := by
  rw [← hb.length_toStringView]
  exact List.length_pos_iff.mpr hne

/-- What is queued is asked for `POLLOUT`, so a `write` of it is reported. -/
theorem Carries.enabled_wrote (h : Carries l p between) (hf : l.sender.fault = none)
    (hqueued : l.sender.sendBuffer.toStringView ≠ []) : (l.step (.pollOut (.wrote 1))).isSome = true :=
  Link.enabled_wrote hf (h.sender.interested_of_view hqueued)
    (one_le_readableBytes h.sender.wellFormed hqueued)

/-- Where no event can move a byte, none of the three places holds one. -/
theorem Healthy.retrieved_of_stuck (h : Healthy l sent) (hstuck : ∀ op : Op, op.Moves → l.step op = none) :
    l.receiver.retrieved = sent.map some := by
  obtain ⟨p, between, hcarries, haccepted⟩ := h.carries
  obtain ⟨q, hq⟩ := hcarries.receiver h.reading
  have hconserved := hcarries.delivers.conserved h.reading
  rw [haccepted] at hconserved
  have hnot : ∀ op : Op, op.Moves → (l.step op).isSome = true → False := by
    intro op hop hsome
    rw [hstuck op hop] at hsome
    cases hsome
  -- Each place is empty, since a byte in it could be moved.
  have hqueued : l.sender.sendBuffer.toStringView = [] := by
    by_contra hne
    exact hnot (.pollOut (.wrote 1)) Nat.one_pos (hcarries.enabled_wrote h.running hne)
  have hflight : l.inFlight = [] := by
    rw [hcarries.inFlight]
    cases hbetween : between with
    | nil => rfl
    | cons b rest =>
      have htake : l.inFlight.take [b].length = [b].map some := by
        rw [hcarries.inFlight, hbetween]
        rfl
      exact absurd (enabled_pollIn hq.running (List.cons_ne_nil b []) (one_le_iovTotal _) htake)
        (hnot (.pollIn [b]) trivial)
  have hreadable : l.receiver.reactor.readBuf.toStringView = [] := by
    by_contra hne
    exact hnot (.retrieve 1) Nat.one_pos
      (enabled_retrieve hq.running (one_le_readableBytes hq.wellFormed hne))
  have hempty : l.underway = [] := by
    unfold underway
    rw [hqueued, hflight, hreadable]
    rfl
  rwa [hempty, List.append_nil] at hconserved

/-- From wherever a run has come without a fault, the events that move bytes end, with no more than three for
each byte that has been sent; and where none is left, the receiver has all of them. -/
theorem drains (writing : Bool) (ops more : List Op) (l l' : Link)
    (hrun : Machine.run step (initial writing) ops = some l)
    (hf : l.sender.fault = none ∧ l.receiver.reactor.fault = none)
    (hfits : Buffer.kCheapPrepend + (passed ops).length ≤ maxSize) (hmore : ∀ op ∈ more, op.Moves)
    (hrun' : Machine.run step l more = some l') :
    more.length ≤ 3 * (passed ops).length ∧
      ((∀ op : Op, op.Moves → l'.step op = none) → l'.receiver.retrieved = (passed ops).map some) := by
  obtain ⟨⟨p, between, hcarries⟩, -⟩ := carries_of_run hrun
  have haccepted : p.accepted = passed ops := by
    cases SendStream.ended_of_run (sender_of_run hrun) with
    | running _ hsender => exact hcarries.accepted hsender
    | tooLong _ _ _ hfault _ _ => cases hf.1.symm.trans hfault
    | failed _ _ hfault _ => cases hf.1.symm.trans hfault
  have hhealthy : Healthy l (passed ops) := ⟨⟨p, between, hcarries, haccepted⟩, hf.1, hf.2, hfits⟩
  obtain ⟨h', hprogress⟩ := hhealthy.moves hmore hrun'
  obtain ⟨p', between', hcarries', haccepted'⟩ := h'.carries
  have hle := hcarries'.progress_le
  rw [haccepted'] at hle
  exact ⟨by omega, h'.retrieved_of_stuck⟩

theorem drains_three :
    ∃ l l', Machine.run step (initial false) twoOfThree = some l ∧ Machine.run step l arrivals = some l' ∧
      arrivals.length ≤ 3 * (passed twoOfThree).length ∧
      ((∀ op : Op, op.Moves → l'.step op = none) → l'.receiver.retrieved = (passed twoOfThree).map some) := by
  have hrunning : ((Machine.run step (initial false) twoOfThree).map
      fun l => (l.sender.fault, l.receiver.reactor.fault)) = some (none, none) := by decide +kernel
  obtain ⟨l, hl, hfaults⟩ := Option.map_eq_some_iff.mp hrunning
  obtain ⟨hsender, hreceiver⟩ := Prod.mk.inj hfaults
  have hmoved : ((Machine.run step (initial false) twoOfThree).bind
      fun l => Machine.run step l arrivals).isSome = true := by decide +kernel
  rw [hl, Option.bind_some] at hmoved
  obtain ⟨l', hl'⟩ := Option.isSome_iff_exists.mp hmoved
  exact ⟨l, l', hl, hl', drains false _ _ l l' hl ⟨hsender, hreceiver⟩ (by decide) (by decide) hl'⟩

end Link

end Hulatang
