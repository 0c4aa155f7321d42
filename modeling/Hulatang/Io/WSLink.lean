import Mathlib.Algebra.BigOperators.Group.List.Basic
import Mathlib.Algebra.GroupWithZero.Nat
import Hulatang.Io.PostedRead
import Hulatang.Io.PostedRegion

/-!
# A byte stream from one end to the other on Windows

The outgoing half of one connection on `WSProactor`, the incoming half of its peer's, and what the systems
hold between the two sockets. Both halves have an operation outstanding into or out of memory that the
program goes on to use: `WSASend` reads the region that a `WRITE` was posted with until it completes, and
`WSARecv` writes to that of a `READ`. Where the `send`s leave the region of an outstanding `WRITE` in place
and find one outstanding, and the retrievals leave the free space in place, the link is two pipes in series:
what has been sent and not retrieved is in one of the three places, in order, and both halves go on
(`delivers_of_meets`).

On the side of the sender every post succeeds, a `WRITE` completes with the whole of its region, and a `READ`
with at least one byte. The receiver's operations may complete with any number of bytes, and fail.
-/

namespace Hulatang

/-- One direction of a connection between two programs on Windows. -/
structure WSLink where
  sender : StoredProactor
  /-- What completed `WRITE`s have transferred and no `WSARecv` of the receiver has delivered. -/
  inFlight : List NoInit
  receiver : PostedRead

namespace WSLink

def initial (begin spare : ℕ) (err : Option WSAError) : WSLink where
  sender := .initial begin spare
  inFlight := []
  receiver := .initial err

/-- The steps of a run, on the loop of the sender and on that of the receiver. -/
inductive Op
  | send (buf : Buf) (begin spare : ℕ)
  /-- The operation at the place `k` of the sender's list completes; what it has transferred is `data`. -/
  | completion (k bytes : ℕ) (data : List NoInit)
  | messageReturn
  | receiver (op : PostedRead.Op)
  deriving DecidableEq

/-- The system has read so many bytes from the region of a `WRITE`, or anything if its storage is gone. -/
def Transfers (s : StoredProactor) (k : ℕ) (data : List NoInit) : Prop :=
  match s.proactor.overs[k]?, s.regions[k]? with
  | some (.write address len), some r =>
    data.length = len ∧ (r.storage = s.storage → data = s.bytesAt address len)
  | _, _ => data = []

instance (s : StoredProactor) (k : ℕ) (data : List NoInit) : Decidable (Transfers s k data) := by
  unfold Transfers
  split <;> infer_instance

/-- What the receiver has got by a step. -/
def taken (s t : PostedRead) : List UInt8 := t.received.drop s.received.length

/-- One step of one of the halves. `WSARecv` delivers what is in flight, in order. -/
def step (l : WSLink) : Op → Option WSLink
  | .send buf begin spare =>
    (l.sender.step (.send buf begin spare)).map fun sender => { l with sender := sender }
  | .completion k bytes data =>
    if Transfers l.sender k data then
      (l.sender.step (.completion k bytes)).map fun sender =>
        { l with sender := sender, inFlight := l.inFlight ++ data }
    else none
  | .messageReturn => (l.sender.step .messageReturn).map fun sender => { l with sender := sender }
  | .receiver op =>
    (l.receiver.step op).bind fun receiver =>
      let bytes := taken l.receiver receiver
      if l.inFlight.take bytes.length = bytes.map some then
        some { l with receiver := receiver, inFlight := l.inFlight.drop bytes.length }
      else none

/-- What is in the receiver's buffer, in flight and in the sender's buffer. -/
def underway (l : WSLink) : List NoInit :=
  l.receiver.readBuf.toStringView ++ l.inFlight ++ l.sender.proactor.sendBuffer.toStringView

/-- What a step passes to `send`. -/
def Op.passed : Op → List UInt8
  | send buf _ _ => buf.buf
  | completion _ _ _ | messageReturn | receiver _ => []

/-- How many bytes the user retrieves in a step. -/
def Op.retrieved : Op → ℕ
  | receiver (.retrieve n) => n
  | receiver (.completion _ _) | receiver (.postRecv _) | send _ _ _ | completion _ _ _ | messageReturn => 0

/-- The byte strings that a run has passed to `send`, one after the other. -/
def passed (ops : List Op) : List UInt8 := (ops.map Op.passed).flatten

/-- How many bytes the user has retrieved in a run. -/
def retrieved (ops : List Op) : ℕ := (ops.map Op.retrieved).sum

/-- What is retrieved was sent first. What is sent and not retrieved is under way, as long as no exception has
left an operation of the receiver. While something is to be sent, a `WRITE` is outstanding; and a `READ` while
the callback does not run, until the receiver closes. -/
structure Delivers (l : WSLink) (sent : List UInt8) : Prop where
  ordered : l.receiver.retrieved <+: sent.map some
  conserved : l.receiver.fault = none → l.receiver.retrieved ++ l.underway = sent.map some
  outstanding : l.sender.proactor.sendBuffer.toStringView ≠ [] → l.sender.proactor.writes ≠ []
  armed : l.receiver.fault = none → l.receiver.closes = 0 →
    (l.receiver.receiving = true ↔ l.receiver.posted = none)

/-- What the two programs have to see to. -/
def Careful (l : WSLink) : Op → Prop
  | .send buf begin spare =>
    l.sender.InPlace (.send buf begin spare) ∧ l.sender.proactor.Prompted (.send buf begin)
  | .receiver op => l.receiver.Consumes op
  | _ => True

instance (l : WSLink) : DecidablePred l.Careful
  | .send buf begin spare =>
    inferInstanceAs (Decidable
      (l.sender.InPlace (.send buf begin spare) ∧ l.sender.proactor.Prompted (.send buf begin)))
  | .receiver op => inferInstanceAs (Decidable (l.receiver.Consumes op))
  | .completion _ _ _ | .messageReturn => inferInstanceAs (Decidable True)

/-- The sender implements the pipe `p`, and its regions are stable; what `p` has delivered is what the
receiver has received, and `between`. -/
structure Carries (l : WSLink) (p : Pipe UInt8) (between : List UInt8) : Prop where
  sender : WSProactor.Sending l.sender.proactor p
  held : StoredProactor.Held l.sender
  inFlight : l.inFlight = between.map some
  received : l.receiver.received ++ between = p.delivered
  retrieved : l.receiver.retrieved <+: l.receiver.received.map some
  receiver : (∃ q, PostedRead.Refines l.receiver q) ∨ PostedRead.Thrown l.receiver

/-- Bytes that are written are known from what is in memory. -/
theorem eq_of_map_some {xs ys : List UInt8} (h : xs.map (some : UInt8 → NoInit) = ys.map some) : xs = ys :=
  List.map_injective_iff.mpr (fun _ _ => Option.some.inj) h

variable {l l' : WSLink} {p p' : Pipe UInt8} {between bytes : List UInt8} {op : Op}

theorem Carries.delivers (h : Carries l p between) : Delivers l p.accepted := by
  have hreceived : l.receiver.received <+: p.accepted :=
    (h.received ▸ List.prefix_append l.receiver.received between).trans p.delivered_prefix_accepted
  constructor
  · exact h.retrieved.trans (hreceived.map some)
  · intro hrunning
    rcases h.receiver with ⟨q, hq⟩ | hthrown
    · -- The two pipes in series.
      have hfed : q.accepted ++ between = p.delivered := hq.carries.accepted ▸ h.received
      have hjoined := (p.join q between hfed).conserved
      have hqueued : l.underway = (p.join q between hfed).queued.map some := by
        show _ = (q.queued ++ between ++ p.queued).map some
        rw [List.map_append, List.map_append]
        unfold underway
        rw [hq.carries.queued, h.inFlight, h.sender.carries.queued]
      rw [hqueued, hq.carries.delivered, ← List.map_append]
      exact congrArg (List.map some) hjoined
    · cases hrunning.symm.trans hthrown.thrown
  · exact h.sender.posted.outstanding
  · intro hrunning hopened
    rcases h.receiver with ⟨q, hq⟩ | hthrown
    · exact hq.inOrder.armed hopened
    · cases hrunning.symm.trans hthrown.thrown

/-! ## The sender -/

section Sender

variable {s t : StoredProactor} {q : WSProactor} {buf : Buf}

/-- What the pipe has delivered is what has been sent and is not queued. -/
theorem conserved_of_sending (h : WSProactor.Sending q p) :
    p.delivered.map some ++ q.sendBuffer.toStringView = q.sent.map some := by
  have hsent : q.sent = p.accepted := h.carries.accepted
  rw [h.carries.queued, hsent, ← List.map_append, p.conserved]

theorem sent_postSend (q : WSProactor) : q.postSend.sent = q.sent := by
  unfold WSProactor.postSend
  split_ifs <;> rfl

theorem sent_enableWriting (hrovers : q.rovers = []) : q.enableWriting.sent = q.sent := by
  rw [WSProactor.enableWriting_eq hrovers]
  unfold WSProactor.updatePost
  split_ifs
  · rfl
  · rfl
  · exact sent_postSend _
  · rfl

theorem sent_send (hrovers : q.rovers = []) {sendBuffer : Buffer}
    (happend : q.sendBuffer.append buf.buf = .ok sendBuffer) (begin : ℕ) :
    (q.send buf begin).sent = q.sent ++ buf.buf := by
  unfold WSProactor.send
  rw [happend]
  dsimp only
  split_ifs
  · rfl
  · exact sent_enableWriting hrovers

/-- The completion of a `WRITE` takes its bytes off, and changes nothing else of the stream. -/
theorem sent_handleWrite (hrovers : q.rovers = []) {len : ℕ} {sendBuffer : Buffer}
    (hretrieve : q.sendBuffer.retrieve len = .ok sendBuffer) :
    (q.handleWrite len).sent = q.sent ∧ (q.handleWrite len).sendBuffer = sendBuffer := by
  unfold WSProactor.handleWrite
  rw [hretrieve]
  dsimp only
  split_ifs with hrest
  · refine ⟨sent_postSend _, ?_⟩
    unfold WSProactor.postSend
    split_ifs <;> rfl
  · rw [WSProactor.disableWriting_eq]
    · exact ⟨rfl, rfl⟩
    · exact hrovers

/-- A `send` pushes its bytes, and delivers none. -/
theorem delivered_send (h : WSProactor.Sending s.proactor p)
    {begin spare : ℕ} (hs : s.step (.send buf begin spare) = some t)
    (hprompted : s.proactor.Prompted (.send buf begin)) :
    ∃ p', WSProactor.Sending t.proactor p' ∧ p'.delivered = p.delivered ∧
      p'.accepted = p.accepted ++ buf.buf := by
  have hwf := h.carries.wellFormed
  obtain ⟨sendBuffer, u, place, happend, rfl, -⟩ := StoredProactor.send_cases hwf hs
  have hplace : s.proactor.Prompted (.send buf place) := hprompted
  obtain ⟨p', hp'⟩ := h.send hplace happend
  have hsent := sent_send h.carries.rovers happend place
  have haccepted : p'.accepted = p.accepted ++ buf.buf := by
    rw [← hp'.carries.accepted, ← h.carries.accepted]
    exact hsent
  refine ⟨p', hp', ?_, haccepted⟩
  -- What is queued has grown by the bytes that have been passed, so as much is delivered as before.
  have hbefore := conserved_of_sending h
  have hafter := conserved_of_sending hp'
  obtain ⟨-, hview⟩ := hwf.appended buf.len_le happend
  rw [(WSProactor.posts_send h.carries.rovers happend place).sendBuffer, hsent] at hafter
  dsimp only at hafter
  rw [hview, List.map_append, ← List.append_assoc, ← hbefore] at hafter
  have hsame := List.append_cancel_right (List.append_cancel_right hafter)
  exact eq_of_map_some hsame

/-- The completion of an operation delivers what it has transferred. -/
theorem delivered_completion (h : WSProactor.Sending s.proactor p) (hheld : StoredProactor.Held s)
    {k bytes : ℕ} {data : List NoInit} (htransfers : Transfers s k data)
    (hs : s.step (.completion k bytes) = some t) :
    ∃ p' xs, data = xs.map some ∧ WSProactor.Sending t.proactor p' ∧ p'.delivered = p.delivered ++ xs ∧
      p'.accepted = p.accepted := by
  obtain ⟨q, hq, rfl⟩ := Option.map_eq_some_iff.mp hs
  obtain ⟨p', hp'⟩ := (h.step hq).2 trivial
  unfold WSProactor.step at hq
  dsimp only at hq
  split_ifs at hq with hfault
  split at hq
  case h_2 => cases hq
  rename_i o hk
  split_ifs at hq with hdone
  cases hq
  have hbefore := conserved_of_sending h
  have hafter := conserved_of_sending hp'
  have hrovers := h.carries.rovers
  have haccepted : _ = p'.accepted := hp'.carries.accepted
  rw [WSProactor.process_eq hrovers] at hafter haccepted
  obtain ⟨r, hr⟩ : ∃ r, s.regions[k]? = some r := by
    obtain ⟨hlt, -⟩ := List.getElem?_eq_some_iff.mp hk
    exact ⟨_, List.getElem?_eq_getElem (hheld.stable.length_eq ▸ hlt)⟩
  unfold Transfers at htransfers
  rw [hk, hr] at htransfers
  cases o with
  | none | update => cases hdone.2
  | read =>
    -- A `READ` leaves `sendBuffer` as it is.
    have hsame := List.append_cancel_right (hafter.trans hbefore.symm)
    refine ⟨p', [], htransfers, hp', ?_, haccepted.symm.trans h.carries.accepted⟩
    rw [List.append_nil]
    exact eq_of_map_some hsame
  | write address len =>
    -- The region is where it was, and the system has read it.
    have hwf := h.carries.wellFormed
    have hmem : (Over.write address len, r) ∈ s.proactor.overs.zip s.regions :=
      List.mem_of_getElem? (List.getElem?_zip_eq_some.mpr ⟨hk, hr⟩)
    obtain ⟨hstorage, rfl, -, -⟩ := List.forall₂_zip hheld.stable hmem
    have hfits : len ≤ s.proactor.sendBuffer.readableBytes :=
      hheld.fits len (List.mem_filterMap.mpr ⟨_, List.mem_of_getElem? hk, rfl⟩)
    have hread : data = s.proactor.sendBuffer.toStringView.take len :=
      (htransfers.2 hstorage).trans (StoredProactor.bytesAt_data hwf hfits)
    obtain ⟨sendBuffer, hretrieve, -, hview⟩ := hwf.retrieve hfits
    obtain ⟨hsent, hbuffer⟩ :=
      sent_handleWrite (q := { s.proactor with overs := s.proactor.overs.eraseIdx k }) hrovers hretrieve
    change p'.delivered.map some ++ (WSProactor.handleWrite _ len).sendBuffer.toStringView =
      (WSProactor.handleWrite _ len).sent.map some at hafter
    rw [hsent, hbuffer, hview] at hafter
    dsimp only at hafter
    have htaken : data = (p.queued.take len).map some := by rw [hread, h.carries.queued, List.map_take]
    refine ⟨p', p.queued.take len, htaken, hp', ?_, haccepted.symm.trans (hsent.trans h.carries.accepted)⟩
    have hsame : p'.delivered.map some ++ s.proactor.sendBuffer.toStringView.drop len =
        (p.delivered ++ p.queued.take len).map some ++ s.proactor.sendBuffer.toStringView.drop len := by
      rw [hafter, ← hbefore, List.map_append, List.append_assoc, ← htaken, hread, List.take_append_drop]
    exact eq_of_map_some (List.append_cancel_right hsame)

theorem delivered_messageReturn (h : WSProactor.Sending s.proactor p) (hs : s.step .messageReturn = some t) :
    ∃ p', WSProactor.Sending t.proactor p' ∧ p'.delivered = p.delivered ∧ p'.accepted = p.accepted := by
  obtain ⟨q, hq, rfl⟩ := Option.map_eq_some_iff.mp hs
  obtain ⟨p', hp'⟩ := (h.step hq).2 trivial
  unfold WSProactor.step at hq
  dsimp only at hq
  split_ifs at hq
  cases hq
  have hsame := (conserved_of_sending hp').trans (conserved_of_sending h).symm
  refine ⟨p', hp', eq_of_map_some (List.append_cancel_right hsame), ?_⟩
  exact hp'.carries.accepted.symm.trans h.carries.accepted

end Sender

/-! ## The receiver -/

section Receiver

variable {s t : PostedRead} {result : RecvResult} {n : ℕ}

/-- Bytes arrive, and none are retrieved. -/
structure Receives (s t : PostedRead) : Prop where
  received : s.received <+: t.received
  retrieved : t.retrieved = s.retrieved

theorem stream_error (s : PostedRead) (err : WSAError) :
    (s.error err).received = s.received ∧ (s.error err).retrieved = s.retrieved := by
  unfold PostedRead.error
  dsimp only
  split_ifs <;> exact ⟨rfl, rfl⟩

theorem stream_postRecv (s : PostedRead) (err : Option WSAError) :
    (s.postRecv err).received = s.received ∧ (s.postRecv err).retrieved = s.retrieved := by
  unfold PostedRead.postRecv
  dsimp only
  split
  · exact ⟨rfl, rfl⟩
  · cases err with
    | none => exact ⟨rfl, rfl⟩
    | some err =>
      dsimp only
      split_ifs
      · exact ⟨rfl, rfl⟩
      · exact stream_error _ err

theorem receives_readMore (s : PostedRead) (result : RecvResult) : Receives s (s.readMore result) := by
  cases result with
  | failed err =>
    unfold PostedRead.readMore
    dsimp only
    split_ifs
    · split <;> exact ⟨List.prefix_rfl, rfl⟩
    · exact ⟨(stream_error s err).1 ▸ List.prefix_rfl, (stream_error s err).2⟩
  | received data =>
    unfold PostedRead.readMore
    dsimp only
    split_ifs
    · split <;> exact ⟨List.prefix_append .., rfl⟩
    · exact ⟨List.prefix_append .., rfl⟩

theorem receives_handleRead (s : PostedRead) (n : ℕ) (result : RecvResult) :
    Receives s (s.handleRead n result) := by
  unfold PostedRead.handleRead
  dsimp only
  split
  · exact ⟨List.prefix_rfl, rfl⟩
  · rename_i readBuf _
    split_ifs
    · exact ⟨List.prefix_rfl, rfl⟩
    · have hmore := receives_readMore { s with readBuf := readBuf } result
      exact ⟨hmore.received, hmore.retrieved⟩
    · exact ⟨List.prefix_rfl, rfl⟩

/-- A step other than a retrieval that succeeds retrieves nothing. -/
theorem receives_step {op : PostedRead.Op} (hs : s.step op = some t) :
    Receives s t ∨ t.fault = none ∧ s.received <+: t.received := by
  have hrunning := PostedRead.running_of_step hs
  rcases PostedRead.step_cases hs with
    ⟨bytes, result, wsabuf, -, -, -, -, rfl⟩ | ⟨n, -, rfl⟩ | ⟨err, -, -, rfl⟩
  · have hread := receives_handleRead (s.transfer wsabuf bytes) bytes.length result
    exact .inl ⟨(List.prefix_append s.received bytes).trans hread.received, hread.retrieved⟩
  · unfold PostedRead.retrieve
    split
    · exact .inl ⟨List.prefix_rfl, rfl⟩
    · exact .inr ⟨hrunning, List.prefix_rfl⟩
  · obtain ⟨hreceived, hretrieved⟩ := stream_postRecv s err
    exact .inl ⟨hreceived ▸ List.prefix_rfl, hretrieved⟩

/-- Whatever it does, what the receiver has received stays, and it has retrieved the first of it. -/
theorem retrieved_prefix_step {op : PostedRead.Op} (hs : s.step op = some t)
    (hretrieved : s.retrieved <+: s.received.map some)
    (ht : (∃ q, PostedRead.Refines t q) ∨ PostedRead.Thrown t) :
    s.received <+: t.received ∧ t.retrieved <+: t.received.map some := by
  have hstep := receives_step hs
  have hreceived : s.received <+: t.received := hstep.elim Receives.received And.right
  refine ⟨hreceived, ?_⟩
  rcases ht with ⟨q, hq⟩ | hthrown
  · rw [hq.carries.delivered, hq.carries.accepted]
    exact q.delivered_prefix_accepted.map some
  · rcases hstep with hreceives | ⟨hrunning, -⟩
    · rw [hreceives.retrieved]
      exact hretrieved.trans (hreceived.map some)
    · cases hrunning.symm.trans hthrown.thrown

/-- Nothing but a retrieval retrieves, and that retrieves what it asks for. -/
theorem length_retrieved_step {op : PostedRead.Op} {q : Pipe UInt8} (h : PostedRead.Refines s q)
    (hconsumes : s.Consumes op) (hs : s.step op = some t) :
    t.retrieved.length = s.retrieved.length + (Op.receiver op).retrieved := by
  rcases PostedRead.step_cases hs with
    ⟨bytes, result, wsabuf, rfl, -, -, -, rfl⟩ | ⟨n, rfl, rfl⟩ | ⟨err, rfl, -, rfl⟩
  · rw [(receives_handleRead (s.transfer wsabuf bytes) bytes.length result).retrieved]
    rfl
  · have hn : n ≤ s.readBuf.readableBytes := hconsumes.1
    have hlength := h.carries.wellFormed.length_toStringView
    rw [h.carries.queued, List.length_map] at hlength
    rw [(h.retrieve hconsumes).carries.delivered, h.carries.delivered, List.length_map, List.length_map]
    show (q.delivered ++ q.queued.take n).length = _ + n
    rw [List.length_append, List.length_take, hlength, Nat.min_eq_left hn]
  · rw [(stream_postRecv s err).2]
    rfl

end Receiver

/-! ## Every step -/

theorem carries_initial (begin spare : ℕ) (err : Option WSAError) :
    Carries (initial begin spare err) .empty [] := by
  obtain ⟨hreceived, hretrieved⟩ := stream_postRecv .fresh err
  have hreceiver : (∃ q, PostedRead.Refines (.initial err) q) ∨ PostedRead.Thrown (.initial err) :=
    (PostedRead.refines_initial err).imp_left fun h => ⟨_, h⟩
  constructor
  · exact WSProactor.sending_initial begin
  · exact StoredProactor.held_initial begin spare
  · rfl
  · show (PostedRead.fresh.postRecv err).received ++ [] = []
    rw [List.append_nil, hreceived]
    rfl
  · show (PostedRead.fresh.postRecv err).retrieved <+: _
    rw [hretrieved]
    exact List.nil_prefix
  · unfold initial
    dsimp only
    exact hreceiver

/-- A step of the sender, with what it has put in flight. -/
theorem Carries.of_sender (h : Carries l p between) {sender : StoredProactor}
    (hsender : WSProactor.Sending sender.proactor p') (hheld : StoredProactor.Held sender)
    (hdelivered : p'.delivered = p.delivered ++ bytes) :
    Carries { l with sender := sender, inFlight := l.inFlight ++ bytes.map some } p' (between ++ bytes) := by
  refine ⟨hsender, hheld, ?_, ?_, h.retrieved, h.receiver⟩
  · show l.inFlight ++ bytes.map some = _
    rw [h.inFlight, List.map_append]
  · show l.receiver.received ++ (between ++ bytes) = _
    rw [← List.append_assoc, h.received, hdelivered]

/-- A step of the sender that puts nothing in flight. -/
theorem Carries.of_quiet (h : Carries l p between) {sender : StoredProactor}
    (hsender : WSProactor.Sending sender.proactor p') (hheld : StoredProactor.Held sender)
    (hdelivered : p'.delivered = p.delivered) : Carries { l with sender := sender } p' between := by
  refine ⟨hsender, hheld, h.inFlight, ?_, h.retrieved, h.receiver⟩
  rw [hdelivered]
  exact h.received

theorem Carries.of_receiver (h : Carries l p between) {op : PostedRead.Op} {receiver : PostedRead}
    (hconsumes : l.receiver.Consumes op) (hs : l.receiver.step op = some receiver)
    (htake : l.inFlight.take (taken l.receiver receiver).length = (taken l.receiver receiver).map some) :
    Carries { l with receiver := receiver, inFlight := l.inFlight.drop (taken l.receiver receiver).length } p
      (between.drop (taken l.receiver receiver).length) := by
  have hnext : (∃ q, PostedRead.Refines receiver q) ∨ PostedRead.Thrown receiver := by
    rcases h.receiver with ⟨q, hq⟩ | hthrown
    · exact hq.step hconsumes hs
    · cases (PostedRead.running_of_step hs).symm.trans hthrown.thrown
  obtain ⟨⟨bytes, hbytes⟩, hretrieved⟩ := retrieved_prefix_step hs h.retrieved hnext
  have htaken : taken l.receiver receiver = bytes := by
    unfold taken
    rw [← hbytes, List.drop_left]
  rw [htaken] at htake ⊢
  have hfirst : between.take bytes.length = bytes := by
    rw [h.inFlight, ← List.map_take] at htake
    exact eq_of_map_some htake
  refine ⟨h.sender, h.held, ?_, ?_, hretrieved, hnext⟩
  · show l.inFlight.drop bytes.length = _
    rw [h.inFlight, List.map_drop]
  · show receiver.received ++ between.drop bytes.length = _
    have hsplit := List.take_append_drop bytes.length between
    rw [hfirst] at hsplit
    rw [← hbytes, List.append_assoc, hsplit, h.received]

theorem Carries.step (h : Carries l p between) (hcareful : l.Careful op) (hs : l.step op = some l') :
    (∃ p' between', Carries l' p' between' ∧ p'.accepted = p.accepted ++ op.passed) ∧
      l'.receiver.retrieved.length = l.receiver.retrieved.length + op.retrieved := by
  cases op with
  | send buf begin spare =>
    obtain ⟨sender, hsender, rfl⟩ := Option.map_eq_some_iff.mp hs
    obtain ⟨p', hp', hdelivered, haccepted⟩ := delivered_send h.sender hsender hcareful.2
    exact ⟨⟨p', _, h.of_quiet hp' ((h.held.step hsender).2 hcareful.1) hdelivered, haccepted⟩, rfl⟩
  | completion k bytes data =>
    unfold WSLink.step at hs
    dsimp only at hs
    split_ifs at hs with htransfers
    obtain ⟨sender, hsender, rfl⟩ := Option.map_eq_some_iff.mp hs
    obtain ⟨p', xs, rfl, hp', hdelivered, haccepted⟩ :=
      delivered_completion h.sender h.held htransfers hsender
    refine ⟨⟨p', _, h.of_sender hp' ((h.held.step hsender).2 trivial) hdelivered, ?_⟩, rfl⟩
    exact haccepted.trans (List.append_nil _).symm
  | messageReturn =>
    obtain ⟨sender, hsender, rfl⟩ := Option.map_eq_some_iff.mp hs
    obtain ⟨p', hp', hdelivered, haccepted⟩ := delivered_messageReturn h.sender hsender
    refine ⟨⟨p', _, h.of_quiet hp' ((h.held.step hsender).2 trivial) hdelivered, ?_⟩, rfl⟩
    exact haccepted.trans (List.append_nil _).symm
  | receiver op =>
    obtain ⟨receiver, hreceiver, hs⟩ := Option.bind_eq_some_iff.mp hs
    dsimp only at hs
    split_ifs at hs with htake
    cases hs
    refine ⟨⟨p, _, h.of_receiver hcareful hreceiver htake, (List.append_nil _).symm⟩, ?_⟩
    rcases h.receiver with ⟨q, hq⟩ | hthrown
    · exact length_retrieved_step hq hcareful hreceiver
    · cases (PostedRead.running_of_step hreceiver).symm.trans hthrown.thrown

/-- Over every run in which both programs are careful, the stream is delivered in order, nothing is lost, and
both halves go on. -/
theorem delivers_of_meets (begin spare : ℕ) (err : Option WSAError) (ops : List Op) (l : WSLink)
    (hcareful : Machine.Meets step Careful (initial begin spare err) ops)
    (hrun : Machine.run step (initial begin spare err) ops = some l) :
    Delivers l (passed ops) ∧ l.receiver.retrieved.length = retrieved ops := by
  have hinitial : (initial begin spare err).receiver.retrieved = [] := (stream_postRecv .fresh err).2
  have hcarries : (∃ p between, Carries l p between ∧ p.accepted = passed ops) ∧
      l.receiver.retrieved.length = retrieved ops := by
    refine Machine.history_of_meets
      (I := fun ops l => (∃ p between, Carries l p between ∧ p.accepted = passed ops) ∧
        l.receiver.retrieved.length = retrieved ops) (fun ops l op l' h hg hs => ?_)
      ⟨⟨_, _, carries_initial begin spare err, rfl⟩, congrArg List.length hinitial⟩ hcareful hrun
    obtain ⟨⟨p, between, hcarries, haccepted⟩, hlength⟩ := h
    obtain ⟨⟨p', between', hcarries', haccepted'⟩, hlength'⟩ := hcarries.step hg hs
    refine ⟨⟨p', between', hcarries', ?_⟩, ?_⟩
    · rw [haccepted', haccepted]
      unfold passed
      rw [List.map_append, List.flatten_append, List.map_singleton, List.flatten_singleton]
    · rw [hlength', hlength]
      unfold retrieved
      rw [List.map_append, List.sum_append, List.map_singleton, List.sum_singleton]
  obtain ⟨⟨p, between, hcarries, haccepted⟩, hlength⟩ := hcarries
  exact ⟨haccepted ▸ hcarries.delivers, hlength⟩

/-- Three bytes are sent, and a fourth while the `WRITE` is outstanding; two are retrieved in the callback. -/
def fourBytes : List Op :=
  [.send ⟨[11, 12, 13], by decide⟩ 0 0, .send ⟨[14], by decide⟩ 0 0,
    .completion 1 3 [some 11, some 12, some 13], .receiver (.completion [11, 12, 13] (.received [])),
    .receiver (.retrieve 2), .receiver (.postRecv none), .completion 1 1 [some 14],
    .receiver (.completion [14] (.received []))]

theorem delivers_four_bytes : ∃ l, Machine.run step (initial 0 0 none) fourBytes = some l ∧
    l.receiver.retrieved = [some 11, some 12] ∧ l.underway = [some 13, some 14] ∧
    Delivers l (passed fourBytes) ∧ l.receiver.retrieved.length = retrieved fourBytes := by
  have hruns : (Machine.run step (initial 0 0 none) fourBytes).map
      (fun l => (l.receiver.retrieved, l.underway)) = some ([some 11, some 12], [some 13, some 14]) := by
    decide +kernel
  obtain ⟨l, hl, hends⟩ := Option.map_eq_some_iff.mp hruns
  obtain ⟨hretrieved, hunderway⟩ := Prod.mk.inj hends
  have hcareful : Machine.Meets step Careful (initial 0 0 none) fourBytes := by decide +kernel
  exact ⟨l, hl, hretrieved, hunderway, delivers_of_meets 0 0 none fourBytes l hcareful hl⟩

end WSLink

end Hulatang
