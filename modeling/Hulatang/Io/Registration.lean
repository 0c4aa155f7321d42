import Mathlib.Data.List.Count
import Mathlib.Order.Basic
import Hulatang.Io.TCPConnection

/-!
# The registration protocol

Every change of a channel's flags is an `epoll_ctl` at once, and `send` changes them in any state of the
connection. The protocol is kept in the runs in which the body of `send` does not run once the
connection is `kDisconnected`, and `connectDestroyed` runs on a connection that is `kConnected`
(`Orderly`). The invariant goes by the connection's state: before `connectEstablished` only the channel's
`add` touches it; then it stays registered until the `cancel` that `connectDestroyed` leaves on the
stack, with no flag set in between.
-/

namespace Hulatang.TCPConnection

/-- Every `epoll_ctl` is legal, and `Channel::cancel` finds no flag set. -/
structure LegalCtl (c : TCPConnection) : Prop where
  illegalCtl : c.illegalCtl = false
  cancelWithFlags : c.cancelWithFlags = false

/-- The body of `send` runs before the connection is disconnected, and `connectDestroyed` on a connected
one. -/
def Orderly (c : TCPConnection) : Op → Prop
  | .run _ => (c.frames.head? = some .send → c.state ≠ .kDisconnected) ∧
      (c.frames.head? = some .connectDestroyed → c.state = .kConnected)
  | _ => True

instance (c : TCPConnection) : DecidablePred c.Orderly
  | .run _ => inferInstanceAs (Decidable (_ ∧ _))
  | .startup | .task _ | .event _ | .userSend | .userClose | .otherSend | .otherClose | .disconnect
  | .removal => inferInstanceAs (Decidable True)

/-- What is not part of the start-up or of the end of a connection. -/
def Ordinary (frame : Frame) : Prop :=
  frame ≠ .add ∧ frame ≠ .connectEstablished ∧ frame ≠ .cancel

instance : DecidablePred Ordinary := fun _ => inferInstanceAs (Decidable (_ ∧ _ ∧ _))

/-- Before `connectEstablished` has run: nothing else is to do, and only a client has tasks queued. -/
structure Starting (c : TCPConnection) : Prop where
  frames : c.frames ++ c.startup =
    if c.registered then [.connectEstablished] else [.add, .connectEstablished]
  client : c.owner = .client → c.registered = true ∧ c.frames ≠ []
  queue : c.owner = .client ∨ c.queue = []
  removals : c.removals = 0

/-- Between `connectEstablished` and `connectDestroyed`. -/
structure Connected (c : TCPConnection) : Prop where
  registered : c.registered = true
  startup : c.startup = []
  frames : ∀ f ∈ c.frames, Ordinary f

/-- Once `connectDestroyed` has begun: the channel is registered until the `cancel` that is to do. -/
structure Disconnected (c : TCPConnection) : Prop where
  reading : c.reading = false
  writing : c.writing = false
  startup : c.startup = []
  frames : ∀ f ∈ c.frames, f ≠ .add ∧ f ≠ .connectEstablished
  cancel : c.frames.count .cancel = if c.registered then 1 else 0

/-- What holds in each state; nothing sets `kDisconnecting`. -/
def Phase (c : TCPConnection) : StateE → Prop
  | .kConnecting => Starting c
  | .kConnected => Connected c
  | .kDisconnecting => False
  | .kDisconnected => Disconnected c

/-- The invariant. -/
structure Protocol (c : TCPConnection) : Prop where
  legal : LegalCtl c
  tasks : ∀ f ∈ c.queue, Ordinary f
  phase : Phase c c.state

theorem Protocol.starting {c : TCPConnection} (h : Protocol c) (hs : c.state = .kConnecting) :
    Starting c := by
  have hphase := h.phase
  rwa [hs] at hphase

theorem Protocol.connected {c : TCPConnection} (h : Protocol c) (hs : c.state = .kConnected) :
    Connected c := by
  have hphase := h.phase
  rwa [hs] at hphase

theorem Protocol.disconnected {c : TCPConnection} (h : Protocol c) (hs : c.state = .kDisconnected) :
    Disconnected c := by
  have hphase := h.phase
  rwa [hs] at hphase

/-- The other states. -/
theorem Protocol.connected_or_disconnected {c : TCPConnection} (h : Protocol c)
    (hstate : c.state ≠ .kConnecting) : c.state = .kConnected ∨ c.state = .kDisconnected := by
  have hphase := h.phase
  cases hs : c.state with
  | kConnecting => exact absurd hs hstate
  | kConnected => exact .inl rfl
  | kDisconnecting =>
    rw [hs] at hphase
    exact hphase.elim
  | kDisconnected => exact .inr rfl

theorem protocol_initial (owner : Owner) : Protocol (initial owner) := by
  refine ⟨⟨rfl, rfl⟩, by simp [initial], ?_⟩
  cases owner <;> exact ⟨by decide, by decide, by decide, rfl⟩

/-- Neither the channel nor the state changes; what is added to do, and to the queue, is ordinary. -/
structure Calm (c c' : TCPConnection) : Prop where
  state : c'.state = c.state
  reading : c'.reading = c.reading
  writing : c'.writing = c.writing
  registered : c'.registered = c.registered
  startup : c'.startup = c.startup
  illegalCtl : c'.illegalCtl = c.illegalCtl
  cancelWithFlags : c'.cancelWithFlags = c.cancelWithFlags
  frames : ∃ new, c'.frames = new ++ c.frames ∧ ∀ f ∈ new, Ordinary f
  queue : ∀ f ∈ c'.queue, f ∈ c.queue ∨ Ordinary f

theorem Connected.of_calm {c c' : TCPConnection} (h : Connected c) (hc : Calm c c') :
    Connected c' := by
  obtain ⟨new, hframes, hnew⟩ := hc.frames
  refine ⟨hc.registered.trans h.registered, hc.startup.trans h.startup, fun f hf => ?_⟩
  rw [hframes] at hf
  rcases List.mem_append.mp hf with hf | hf
  · exact hnew f hf
  · exact h.frames f hf

theorem Disconnected.of_calm {c c' : TCPConnection} (h : Disconnected c) (hc : Calm c c') :
    Disconnected c' := by
  obtain ⟨new, hframes, hnew⟩ := hc.frames
  refine ⟨hc.reading.trans h.reading, hc.writing.trans h.writing, hc.startup.trans h.startup,
    fun f hf => ?_, ?_⟩
  · rw [hframes] at hf
    rcases List.mem_append.mp hf with hf | hf
    · exact ⟨(hnew f hf).1, (hnew f hf).2.1⟩
    · exact h.frames f hf
  · have hzero : new.count .cancel = 0 := List.count_eq_zero.mpr fun hf => (hnew _ hf).2.2 rfl
    rw [hframes, List.count_append, hzero, Nat.zero_add, h.cancel, hc.registered]

/-- Once the connection is established, a calm step keeps the protocol. -/
theorem Protocol.of_calm {c c' : TCPConnection} (h : Protocol c) (hstate : c.state ≠ .kConnecting)
    (hc : Calm c c') : Protocol c' := by
  refine ⟨⟨hc.illegalCtl.trans h.legal.1, hc.cancelWithFlags.trans h.legal.2⟩, fun f hf => ?_, ?_⟩
  · rcases hc.queue f hf with hf | hf
    · exact h.tasks f hf
    · exact hf
  · rw [hc.state]
    rcases h.connected_or_disconnected hstate with hs | hs <;> rw [hs]
    · exact (h.connected hs).of_calm hc
    · exact (h.disconnected hs).of_calm hc

theorem Calm.refl (c : TCPConnection) : Calm c c :=
  ⟨rfl, rfl, rfl, rfl, rfl, rfl, rfl, ⟨[], rfl, by simp⟩, fun _ hf => .inl hf⟩

/-- Something ordinary is to be done first. -/
theorem calm_push (c : TCPConnection) {frame : Frame} (hf : Ordinary frame) : Calm c (c.push frame) :=
  ⟨rfl, rfl, rfl, rfl, rfl, rfl, rfl, ⟨[frame], rfl, by simpa using hf⟩, fun _ hg => .inl hg⟩

/-- Something ordinary is queued. -/
theorem calm_queueTask (c : TCPConnection) {frame : Frame} (hf : Ordinary frame) :
    Calm c (c.queueTask frame) := by
  refine ⟨rfl, rfl, rfl, rfl, rfl, rfl, rfl, ⟨[], rfl, by simp⟩, fun g hg => ?_⟩
  rcases List.mem_cons.mp hg with rfl | hg
  · exact .inr hf
  · exact .inl hg

theorem Calm.trans {c₁ c₂ c₃ : TCPConnection} (h : Calm c₁ c₂) (h' : Calm c₂ c₃) : Calm c₁ c₃ := by
  obtain ⟨new, hframes, hnew⟩ := h.frames
  obtain ⟨new', hframes', hnew'⟩ := h'.frames
  refine ⟨h'.state.trans h.state, h'.reading.trans h.reading, h'.writing.trans h.writing,
    h'.registered.trans h.registered, h'.startup.trans h.startup, h'.illegalCtl.trans h.illegalCtl,
    h'.cancelWithFlags.trans h.cancelWithFlags, ⟨new' ++ new, ?_, fun f hf => ?_⟩, fun f hf => ?_⟩
  · rw [hframes', hframes, List.append_assoc]
  · rcases List.mem_append.mp hf with hf | hf
    · exact hnew' f hf
    · exact hnew f hf
  · rcases h'.queue f hf with hf | hf
    · exact h.queue f hf
    · exact .inr hf

/-- The owner's bookkeeping. -/
theorem calm_remove (c : TCPConnection) : Calm c c.remove := by
  unfold remove
  split_ifs <;> exact ⟨rfl, rfl, rfl, rfl, rfl, rfl, rfl, ⟨[], rfl, by simp⟩, fun _ hf => .inl hf⟩

/-- A close leaves the channel alone. -/
theorem calm_close (c : TCPConnection) : Calm c c.close := by
  have hdestroy : Ordinary .connectDestroyed := by decide
  have hclosed : Calm c { c with closed := c.closed + 1 } :=
    ⟨rfl, rfl, rfl, rfl, rfl, rfl, rfl, ⟨[], rfl, by simp⟩, fun _ hf => .inl hf⟩
  unfold close
  extract_lets
  split
  · exact (hclosed.trans (calm_remove _)).trans (calm_queueTask _ hdestroy)
  · exact (hclosed.trans (calm_remove _)).trans (calm_push _ hdestroy)
  · exact hclosed.trans ⟨rfl, rfl, rfl, rfl, rfl, rfl, rfl, ⟨[], rfl, by simp⟩, fun _ hf => .inl hf⟩

/-- So do the dispatch of an event and a user callback. -/
theorem calm_runFrame (c : TCPConnection) (io : IoResult) {frame : Frame} (hframe : Ordinary frame)
    (hdestroy : frame ≠ .connectDestroyed) (hsend : frame ≠ .send) : Calm c (c.runFrame io frame) := by
  cases frame with
  | add => exact absurd rfl hframe.1
  | connectEstablished => exact absurd rfl hframe.2.1
  | cancel => exact absurd rfl hframe.2.2
  | connectDestroyed => exact absurd rfl hdestroy
  | send => exact absurd rfl hsend
  | close => exact calm_close c
  | user => exact .refl c
  | crash => exact ⟨rfl, rfl, rfl, rfl, rfl, rfl, rfl, ⟨[], rfl, by simp⟩, fun _ hf => .inl hf⟩
  | lastCall writes =>
    cases writes with
    | false => exact .refl c
    | true =>
      cases io with
      | error => exact calm_push c (by simp [Ordinary])
      | again | eof | data => exact .refl c
  | firstCall call =>
    cases call with
    | none => exact .refl c
    | some call =>
      cases call with
      | handleClose => exact calm_push c (by simp [Ordinary])
      | handleError => exact .refl c
      | handleRead =>
        cases io with
        | again => exact .refl c
        | eof | data => exact calm_push c (by simp [Ordinary])
        | error => exact (calm_push c (by simp [Ordinary])).trans (calm_push _ (by simp [Ordinary]))

/-! ## Every step -/

/-- The loop thread takes something ordinary off its stack. -/
theorem Protocol.pop {c : TCPConnection} (h : Protocol c) (hstate : c.state ≠ .kConnecting)
    {frame : Frame} {frames : List Frame} (hf : c.frames = frame :: frames) (hframe : Ordinary frame) :
    Protocol { c with frames := frames } := by
  refine ⟨⟨h.legal.1, h.legal.2⟩, h.tasks, ?_⟩
  dsimp only
  rcases h.connected_or_disconnected hstate with hs | hs <;> rw [hs]
  · have hphase := h.connected hs
    exact ⟨hphase.registered, hphase.startup, fun f hmem =>
      hphase.frames f (hf ▸ List.mem_cons_of_mem frame hmem)⟩
  · have hphase := h.disconnected hs
    refine ⟨hphase.reading, hphase.writing, hphase.startup, fun f hmem =>
      hphase.frames f (hf ▸ List.mem_cons_of_mem frame hmem), ?_⟩
    have hcancel := hphase.cancel
    rw [hf, List.count_cons_of_ne hframe.2.2] at hcancel
    exact hcancel

/-- The start-up, which ends with the user's `connectionCallback`. -/
theorem Protocol.run_starting {c : TCPConnection} (h : Protocol c) (hs : c.state = .kConnecting)
    (io : IoResult) {frame : Frame} {frames : List Frame} (hf : c.frames = frame :: frames) :
    Protocol ({ c with frames := frames }.runFrame io frame) := by
  have hphase := h.starting hs
  have hstart := hphase.frames
  rw [hf] at hstart
  by_cases hr : c.registered = true
  case neg =>
    rw [if_neg hr, List.cons_append, List.cons.injEq] at hstart
    obtain ⟨rfl, hrest⟩ := hstart
    have howner : c.owner ≠ .client := fun ho => hr (hphase.client ho).1
    have hadd : ({ c with frames := frames }.runFrame io .add) =
        { c with frames := frames, registered := true } := by
      rw [runFrame, add, if_neg hr]
    rw [hadd]
    refine ⟨⟨h.legal.1, h.legal.2⟩, h.tasks, ?_⟩
    dsimp only
    rw [hs]
    exact ⟨hrest, fun ho => absurd ho howner, hphase.queue, hphase.removals⟩
  case pos =>
    rw [if_pos hr, List.cons_append, List.cons.injEq] at hstart
    obtain ⟨rfl, hrest⟩ := hstart
    obtain ⟨rfl, hstartup⟩ := List.append_eq_nil_iff.mp hrest
    have hestablished : ({ c with frames := [] }.runFrame io .connectEstablished) =
        { c with frames := [.user], state := .kConnected, reading := true } := by
      simp only [runFrame, connectEstablished, enableReading, update, push, hr, if_true]
    rw [hestablished]
    exact ⟨⟨h.legal.1, h.legal.2⟩, h.tasks, hr, hstartup, by simp [Ordinary]⟩

/-- A connected one: `send` and `connectDestroyed` find the channel registered. -/
theorem Protocol.run_connected {c : TCPConnection} (h : Protocol c) (hs : c.state = .kConnected)
    (io : IoResult) {frame : Frame} {frames : List Frame} (hf : c.frames = frame :: frames) :
    Protocol ({ c with frames := frames }.runFrame io frame) := by
  have hphase := h.connected hs
  have hframe : Ordinary frame := hphase.frames frame (hf ▸ List.mem_cons_self)
  have hrest : ∀ f ∈ frames, Ordinary f := fun f hmem =>
    hphase.frames f (hf ▸ List.mem_cons_of_mem frame hmem)
  have hpop : Protocol { c with frames := frames } := h.pop (by simp [hs]) hf hframe
  have hr := hphase.registered
  by_cases hsend : frame = .send
  · subst hsend
    simp only [runFrame, send]
    split_ifs with hw
    · exact hpop
    · -- The first `send` modifies a channel that is registered.
      have hsent : ({ c with frames := frames }.enableWriting) =
          { c with frames := frames, writing := true } := by
        simp only [enableWriting, update, hr, if_true]
      rw [hsent]
      refine ⟨⟨h.legal.1, h.legal.2⟩, h.tasks, ?_⟩
      dsimp only
      rw [hs]
      exact ⟨hr, hphase.startup, hrest⟩
  by_cases hdestroy : frame = .connectDestroyed
  · subst hdestroy
    -- `disableAll` modifies the channel, and leaves the `cancel` that follows the user's callback.
    have hdestroyed : ({ c with frames := frames }.runFrame io .connectDestroyed) =
        { c with frames := .user :: .cancel :: frames, destroyed := c.destroyed + 1,
                 state := .kDisconnected, reading := false, writing := false } := by
      simp only [runFrame, connectDestroyed, hs, disableAll, update, push, hr, if_true]
    have hzero : frames.count .cancel = 0 := List.count_eq_zero.mpr fun hmem => (hrest _ hmem).2.2 rfl
    rw [hdestroyed]
    refine ⟨⟨h.legal.1, h.legal.2⟩, h.tasks, rfl, rfl, hphase.startup, fun f hmem => ?_, ?_⟩
    · rcases List.mem_cons.mp hmem with rfl | hmem
      · decide
      rcases List.mem_cons.mp hmem with rfl | hmem
      · decide
      exact ⟨(hrest f hmem).1, (hrest f hmem).2.1⟩
    · simp [hr, hzero]
  exact hpop.of_calm (by simp [hs]) (calm_runFrame _ io hframe hdestroy hsend)

/-- A disconnected one: only the `cancel` that is left to do touches the channel. -/
theorem Protocol.run_disconnected {c : TCPConnection} (h : Protocol c)
    (hs : c.state = .kDisconnected) (io : IoResult) {frame : Frame} {frames : List Frame}
    (hf : c.frames = frame :: frames) (hsend : frame ≠ .send) (hdestroy : frame ≠ .connectDestroyed) :
    Protocol ({ c with frames := frames }.runFrame io frame) := by
  have hphase := h.disconnected hs
  obtain ⟨hadd, hestablished⟩ := hphase.frames frame (hf ▸ List.mem_cons_self)
  by_cases hcancel : frame = .cancel
  · subst hcancel
    have hcount := hphase.cancel
    rw [hf, List.count_cons_self] at hcount
    -- A `cancel` to do is a channel still registered.
    have hr : c.registered = true := by
      by_contra hr
      rw [if_neg hr] at hcount
      omega
    rw [if_pos hr] at hcount
    have hzero : frames.count .cancel = 0 := by omega
    have hcancelled : ({ c with frames := frames }.runFrame io .cancel) =
        { c with frames := frames, registered := false } := by
      simp only [runFrame, cancel, ctlDel, hphase.reading, hphase.writing, hr, Bool.or_false, if_true]
    rw [hcancelled]
    refine ⟨⟨h.legal.1, h.legal.2⟩, h.tasks, ?_⟩
    dsimp only
    rw [hs]
    refine ⟨hphase.reading, hphase.writing, hphase.startup, fun f hmem => ?_, ?_⟩
    · exact hphase.frames f (hf ▸ List.mem_cons_of_mem _ hmem)
    · simpa using hzero
  have hframe : Ordinary frame := ⟨hadd, hestablished, hcancel⟩
  have hpop := h.pop (by simp [hs]) hf hframe
  exact hpop.of_calm (by simp [hs]) (calm_runFrame _ io hframe hdestroy hsend)

/-- Before `connectEstablished` has run, nothing but the start-up is to do. -/
theorem Starting.head {c : TCPConnection} (h : Starting c) {frame : Frame}
    (hf : c.frames.head? = some frame) : frame = .add ∨ frame = .connectEstablished := by
  have hframes := h.frames
  cases hlist : c.frames with
  | nil =>
    rw [hlist] at hf
    cases hf
  | cons g rest =>
    rw [hlist] at hf hframes
    obtain rfl : g = frame := by simpa using hf
    split_ifs at hframes
    · exact .inr (List.cons.inj hframes).1
    · exact .inl (List.cons.inj hframes).1

/-- Before that, only the user of a client queues tasks. -/
theorem Protocol.queue_starting {c : TCPConnection} (h : Protocol c) (hs : c.state = .kConnecting)
    (howner : c.owner = .client) {frame : Frame} (hframe : Ordinary frame) :
    Protocol (c.queueTask frame) := by
  have hphase := h.starting hs
  refine ⟨⟨h.legal.1, h.legal.2⟩, fun f hmem => ?_, ?_⟩
  · rcases List.mem_cons.mp hmem with rfl | hmem
    · exact hframe
    · exact h.tasks f hmem
  · show Phase (c.queueTask frame) c.state
    rw [hs]
    exact ⟨hphase.frames, hphase.client, .inl howner, hphase.removals⟩

/-- An orderly step keeps the protocol. -/
theorem Protocol.step {c c' : TCPConnection} {op : Op} (h : Protocol c) (hg : c.Orderly op)
    (hs : Stepped c op c') : Protocol c' := by
  have hclose : Ordinary .close := by decide
  have hsend : Ordinary .send := by decide
  by_cases hstate : c.state = .kConnecting
  · have hphase := h.starting hstate
    cases hs with
    | run io frame frames hf => exact h.run_starting hstate io hf
    | startup frame startup hf hstart =>
      refine ⟨⟨h.legal.1, h.legal.2⟩, h.tasks, ?_⟩
      show Phase ({ c with startup := startup }.push frame) c.state
      rw [hstate]
      have hframes := hphase.frames
      rw [hf, hstart] at hframes
      refine ⟨?_, fun ho => absurd hf (hphase.client ho).2, hphase.queue, hphase.removals⟩
      show frame :: (c.frames ++ startup) = _
      rw [hf]
      exact hframes
    | task frame hf hq =>
      -- The user of a client has queued tasks, but there the stack is not empty.
      rcases hphase.queue with ho | hnil
      · exact absurd hf (hphase.client ho).2
      · rw [hnil] at hq
        cases hq
    | event revent hf hr hcon => exact absurd hstate hcon
    | userSend hf => exact absurd (hphase.head hf) (by decide)
    | userClose hf => exact absurd (hphase.head hf) (by decide)
    | otherSend hcon => exact absurd hstate hcon
    | otherClose hcon => exact absurd hstate hcon
    | disconnect ho => exact h.queue_starting hstate ho hclose
    | removal hq =>
      have hzero := hphase.removals
      omega
  · cases hs with
    | run io frame frames hf =>
      rcases h.connected_or_disconnected hstate with hcon | hdis
      · exact h.run_connected hcon io hf
      · have hhead : c.frames.head? = some frame := by rw [hf]; rfl
        refine h.run_disconnected hdis io hf ?_ ?_
        · rintro rfl
          exact hg.1 hhead hdis
        · rintro rfl
          have hcon := hg.2 hhead
          rw [hdis] at hcon
          cases hcon
    | startup frame startup hf hstart =>
      have hnil : c.startup = [] := by
        rcases h.connected_or_disconnected hstate with hcon | hdis
        · exact (h.connected hcon).startup
        · exact (h.disconnected hdis).startup
      rw [hnil] at hstart
      cases hstart
    | task frame hf hq =>
      refine h.of_calm hstate ⟨rfl, rfl, rfl, rfl, rfl, rfl, rfl, ⟨[frame], rfl, ?_⟩, ?_⟩
      · simpa using h.tasks frame hq
      · exact fun g hmem => .inl (List.mem_of_mem_erase hmem)
    | event revent hf hr hcon =>
      have hlast := calm_push c (by simp [Ordinary] : Ordinary (.lastCall (Reactor.callsWrite revent)))
      exact h.of_calm hstate (hlast.trans (calm_push _ (by simp [Ordinary])))
    | userSend hf => exact h.of_calm hstate (calm_push c hsend)
    | userClose hf => exact h.of_calm hstate (calm_queueTask c hclose)
    | otherSend hcon => exact h.of_calm hstate (calm_queueTask c hsend)
    | otherClose hcon => exact h.of_calm hstate (calm_queueTask c hclose)
    | disconnect ho => exact h.of_calm hstate (calm_queueTask c hclose)
    | removal hq =>
      have htaken : Calm c { c with removals := c.removals - 1 } :=
        ⟨rfl, rfl, rfl, rfl, rfl, rfl, rfl, ⟨[], rfl, by simp⟩, fun _ hf => .inl hf⟩
      exact h.of_calm hstate ((htaken.trans (calm_remove _)).trans (calm_queueTask _ (by decide)))

/-- An orderly run keeps the registration protocol. -/
theorem legalCtl_of_orderly (owner : Owner) (ops : List Op)
    (hops : Machine.Meets step Orderly (initial owner) ops) :
    Machine.Always step LegalCtl (initial owner) ops :=
  Machine.always_of_meets (fun _ h => h.legal) (fun _ _ _ h hg hs => h.step hg (stepped_of_step hs))
    (protocol_initial owner) hops

/-- A client sends from its `connectionCallback`, and another thread does; the peer closes. -/
theorem legalCtl_client_sends :
    Machine.Always step LegalCtl (initial .client)
      [.run .data, .userSend, .run .data, .run .data, .otherSend, .task .send, .run .data,
        .event Revent.POLLIN, .run .eof, .run .data, .run .data, .task .connectDestroyed, .run .data,
        .run .data, .run .data] :=
  legalCtl_of_orderly .client _ (by decide)

/-- Another thread sends while the connection of a worker loop is being closed: its task runs after the
`cancel`, and modifies a channel that is not registered. -/
theorem update_of_cancelled_channel :
    ¬ ∀ (owner : Owner) (ops : List Op), Machine.Always step LegalCtl (initial owner) ops := by
  intro h
  have hrun := h .serverWorker
    [.startup, .run .data, .startup, .run .data, .run .data, .event Revent.POLLHUP, .run .data,
      .run .data, .run .data, .otherSend, .removal, .task .connectDestroyed, .run .data, .run .data,
      .run .data, .task .send, .run .data]
  exact absurd (hrun.of_run rfl).illegalCtl (by decide)

end Hulatang.TCPConnection
