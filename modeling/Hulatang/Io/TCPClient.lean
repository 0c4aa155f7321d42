import Mathlib.Tactic.SplitIfs
import Hulatang.Io.Connector
import Hulatang.Io.TCPConnection

/-!
# When a `TCPClient` may be destroyed

A `TCPClient` gives itself away by raw pointers: its connector reads `address` at every attempt and calls
`newConnection` when one succeeds, and the connection's `closeCallback` calls `removeConnection`. Its
destructor takes nothing of that back, and `stop` is empty. The connector and the connection live on: the
tasks and the timers of the loop keep the one, the callbacks of its channel too, and the channel's tie keeps
the other.

Nothing uses the client after its destruction, whatever the loop does, in exactly those runs in which it is
destroyed when no attempt goes on or is to come and the connection is out of the epoll set or about to leave
it, and nobody calls it or closes the connection afterwards (`untouched_iff_careful`). So a client that
retries may not be destroyed at all.
-/

namespace Hulatang

/-- A client, its connector, and the connection that it has made. -/
structure TCPClient where
  /-- Whether the client has not been destroyed. -/
  alive : Bool
  connector : Connector
  /-- How many calls of `startInLoop` are queued on the loop. -/
  starts : ℕ
  connection : Option TCPConnection
  /-- Whether the client has been used after its destruction. -/
  dangling : Bool
  deriving DecidableEq

namespace TCPClient

/-- A constructed client. -/
def initial : TCPClient := ⟨true, .initial .unix, 0, none, false⟩

/-- The program uses the client after its destruction. -/
def dangle (s : TCPClient) : TCPClient := { s with dangling := true }

/-- Whether the program has stopped. -/
def stopped (s : TCPClient) : Bool :=
  s.dangling || s.connector.fault.isSome || s.connection.any TCPConnection.stopped

/-- What the loop thread has begun to do on the connection. -/
def frames (s : TCPClient) : List Frame := s.connection.elim [] TCPConnection.frames

/-- `Connector::startInLoop`, which reads the client's address once its assertion holds. -/
def startInLoop (s : TCPClient) (r : ConnectResult) : TCPClient :=
  if s.connector.state = .Disconnected ∧ s.alive = false then s.dangle
  else { s with connector := s.connector.startInLoop r }

/-- `TCPClient::newConnection`, up to its call of `connectEstablished`. -/
def newConnection (s : TCPClient) : TCPClient :=
  if s.alive then { s with connection := some (.initial .client) } else s.dangle

/-- Whether the connector has called its `newConnectionCallback`, with its channel. -/
def delivers (c c' : Connector) : Bool := c.channel && !c'.channel && c'.state = .Connected

/-- `Reactor::handleEvent` on the connector's channel. -/
def handleEvent (s : TCPClient) (revent : Revent) (soError : Option Errc) : TCPClient :=
  let connector := { s.connector with soError := soError }.handleEvent revent
  if delivers s.connector connector then { s with connector := connector }.newConnection
  else { s with connector := connector }

/-- `TCPClient::disconnect`. -/
def disconnect (s : TCPClient) : TCPClient :=
  { s with connection := s.connection.map fun c => (c.step .disconnect).getD c }

/-- `~TCPClient`, which gives up the pointer to the connection. -/
def destroy (s : TCPClient) : TCPClient :=
  { s with alive := false, connection := s.connection.map fun c => { c with owned := false } }

/-- The steps of the users, of the loop thread and of the connection. -/
inductive Op
  /-- Another thread calls `connect`. -/
  | connect
  /-- The loop thread calls `connect`. -/
  | connectInLoop (r : ConnectResult)
  | disconnect
  /-- The loop runs a queued `startInLoop`. -/
  | start (r : ConnectResult)
  /-- A retry timer fires. -/
  | timer (r : ConnectResult)
  /-- A poll reports the connector's channel. -/
  | event (revent : Revent) (soError : Option Errc)
  | connection (op : TCPConnection.Op)
  /-- The loop thread destroys the client. -/
  | destroy
  deriving DecidableEq

/-- What is done on the connection; the loop thread calls `closeCallback`, a function of the client. -/
def connectionStep (s : TCPClient) (c : TCPConnection) (op : TCPConnection.Op) : Option TCPClient :=
  match op with
  | .disconnect => none
  | .run io =>
    if c.frames.head? = some .close ∧ s.alive = false then some s.dangle
    else (c.step (.run io)).map fun c => { s with connection := some c }
  | op => (c.step op).map fun c => { s with connection := some c }

/-- One step. The loop takes up a task, a timer or an event when it has done what it has begun, and runs code
of the user between those or in a callback. -/
def step (s : TCPClient) (op : Op) : Option TCPClient :=
  if s.stopped then none
  else
    match op with
    | .connect => some (if s.alive then { s with starts := s.starts + 1 } else s.dangle)
    | .connectInLoop r =>
      if s.frames.head? = none ∨ s.frames.head? = some .user then
        some (if s.alive then s.startInLoop r else s.dangle)
      else none
    | .disconnect => some (if s.alive then s.disconnect else s.dangle)
    | .start r =>
      if s.frames = [] ∧ 0 < s.starts then some ({ s with starts := s.starts - 1 }.startInLoop r) else none
    | .timer r =>
      if s.frames = [] ∧ 0 < s.connector.retryTimers then
        some ({ s with
          connector := { s.connector with retryTimers := s.connector.retryTimers - 1 } }.startInLoop r)
      else none
    | .event revent soError =>
      if s.frames = [] ∧ s.connector.channel then some (s.handleEvent revent soError) else none
    | .connection op => s.connection.bind fun c => s.connectionStep c op
    | .destroy =>
      if s.frames.head? = none ∨ s.frames.head? = some .user then
        some (if s.alive then s.destroy else s.dangle)
      else none

/-- Nothing has used the client after its destruction, and no call of it is queued: the close of its
connection would end in `closeCallback`. -/
structure Untouched (s : TCPClient) : Prop where
  dangling : s.dangling = false
  closes : s.alive = false → ∀ c, s.connection = some c → .close ∉ c.queue

/-- No close of the connection is queued, and it is out of the epoll set, or the client is destroyed by the
callback of its `connectDestroyed`. -/
structure Released (c : TCPConnection) : Prop where
  closes : .close ∉ c.queue
  registered : c.registered = true → c.frames = [.user, .cancel]

/-- No attempt goes on or is to come. -/
structure Over (s : TCPClient) : Prop where
  channel : s.connector.channel = false
  attempts : s.connector.state = .Disconnected → s.starts = 0 ∧ s.connector.retryTimers = 0

/-- No attempt goes on or is to come, and the connection is released. -/
structure Quiet (s : TCPClient) : Prop where
  ended : Over s
  connection : ∀ c, s.connection = some c → Released c

/-- What the users are to keep to. -/
def Careful (s : TCPClient) : Op → Prop
  | .connect | .connectInLoop _ | .disconnect | .connection .userClose | .connection .otherClose =>
    s.alive = true
  | .destroy => s.alive = true ∧ s.Quiet
  | _ => True

/-- The steps of the loop. -/
def Looped : Op → Prop
  | .start _ | .timer _ | .event _ _ => True
  | .connection (.run _) | .connection (.task _) | .connection (.event _) => True
  | _ => False

theorem careful_of_looped {op : Op} (s : TCPClient) (h : Looped op) : s.Careful op := by
  cases op with
  | connection op => cases op <;> trivial
  | start | timer | event => trivial
  | connect | connectInLoop | disconnect | destroy => exact h.elim

end TCPClient

/-! ## The connection of a client -/

namespace TCPConnection

variable {c c' : TCPConnection} {r : Bool} {frames : List Frame}

/-- What lies under a user callback: the end of `handleEvent` or that of `connectDestroyed`, each with the
channel in the epoll set. -/
inductive Below : Bool → List Frame → Prop
  | nil {r : Bool} : Below r []
  | lastCall (writes : Bool) : Below true [.lastCall writes]
  | cancel : Below true [.cancel]

/-- The stack of the loop thread for the connection of a client, `r` saying whether the channel is in the
epoll set. -/
inductive Stack : Bool → List Frame → Prop
  | nil {r : Bool} : Stack r []
  | connectEstablished {r : Bool} : Stack r [.connectEstablished]
  | connectDestroyed {r : Bool} : Stack r [.connectDestroyed]
  | cancel {r : Bool} : Stack r [.cancel]
  | sendTask {r : Bool} : Stack r [.send]
  | closeTask {r : Bool} : Stack r [.close]
  | user {r : Bool} {below : List Frame} (h : Below r below) : Stack r (.user :: below)
  | send {r : Bool} {below : List Frame} (h : Below r below) : Stack r (.send :: .user :: below)
  | firstCall (call : Option ReactorCall) (writes : Bool) : Stack true [.firstCall call, .lastCall writes]
  | close (writes : Bool) : Stack true [.close, .lastCall writes]
  | closeCrash (writes : Bool) : Stack true [.close, .crash, .lastCall writes]
  | crash (writes : Bool) : Stack true [.crash, .lastCall writes]
  | lastCall (writes : Bool) : Stack true [.lastCall writes]

/-- The tasks that are queued for the connection of a client. -/
def Queued (f : Frame) : Prop := f = .send ∨ f = .close ∨ f = .connectDestroyed

/-- The invariant of the connection of a client, as long as the program goes on. -/
structure OfClient (c : TCPConnection) : Prop where
  owner : c.owner = .client
  startup : c.startup = []
  removals : c.removals = 0
  queue : ∀ f ∈ c.queue, Queued f
  stack : Stack c.registered c.frames
  connecting : c.state = .kConnecting → c.frames = [.connectEstablished]

theorem ofClient_initial : OfClient (initial .client) :=
  ⟨rfl, rfl, rfl, nofun, .connectEstablished, fun _ => rfl⟩

/-- What is queued may be queued once more. -/
theorem OfClient.queueTask {f : Frame} (h : OfClient c) (hf : Queued f) : OfClient (c.queueTask f) :=
  ⟨h.owner, h.startup, h.removals, List.forall_mem_cons.mpr ⟨hf, h.queue⟩, h.stack, h.connecting⟩

/-- A step that the loop thread takes with the rest of its stack. -/
theorem OfClient.goesOn (h : OfClient c) (howner : c'.owner = c.owner) (hstartup : c'.startup = c.startup)
    (hremovals : c'.removals = c.removals) (hqueue : c'.queue = c.queue) (hstate : c'.state ≠ .kConnecting)
    (hregistered : c'.registered = r) (hstack : Stack r c'.frames) : OfClient c' :=
  ⟨howner.trans h.owner, hstartup.trans h.startup, hremovals.trans h.removals, by rw [hqueue]; exact h.queue,
    hregistered ▸ hstack, fun hconnecting => absurd hconnecting hstate⟩

/-- `removeConnection` queues the `connectDestroyed`. -/
theorem close_of_client (h : c.owner = .client) :
    c.close = ({ c with closed := c.closed + 1 } : TCPConnection).remove.queueTask .connectDestroyed := by
  unfold TCPConnection.close
  dsimp only
  split
  case h_1 => rfl
  all_goals
    rename_i howner
    cases h.symm.trans howner

theorem OfClient.close (h : OfClient c) : OfClient c.close := by
  have hclosed : OfClient { c with closed := c.closed + 1 } := { h with }
  have hremoved : OfClient ({ c with closed := c.closed + 1 } : TCPConnection).remove := by
    unfold remove
    split_ifs <;> exact { h with }
  rw [close_of_client h.owner]
  exact hremoved.queueTask (.inr (.inr rfl))

theorem OfClient.run {io : IoResult} {frame : Frame} (h : OfClient c) (hf : c.frames = frame :: frames)
    (hgo : ({ c with frames := frames }.runFrame io frame).stopped = false) :
    OfClient ({ c with frames := frames }.runFrame io frame) := by
  have hbegun : frame ≠ .connectEstablished → c.state ≠ .kConnecting := by
    intro hne hconnecting
    have hframes := h.connecting hconnecting
    rw [hf] at hframes
    exact hne (List.cons.inj hframes).1
  obtain ⟨r, hr, hstack⟩ : ∃ r, c.registered = r ∧ Stack r (frame :: frames) := ⟨_, rfl, hf ▸ h.stack⟩
  cases hstack with
  | connectEstablished =>
    simp only [runFrame, connectEstablished, enableReading, update] at hgo ⊢
    split_ifs <;> exact h.goesOn rfl rfl rfl rfl nofun rfl (.user .nil)
  | connectDestroyed =>
    have hstate := hbegun nofun
    simp only [runFrame, connectDestroyed, disableAll, update] at hgo ⊢
    -- The flags are only cleared in the epoll set, so the callback runs with the channel in it.
    split_ifs at hgo ⊢ with hconnected hregistered
    · exact h.goesOn rfl rfl rfl rfl nofun hregistered (.user .cancel)
    · cases hgo
    · exact h.goesOn rfl rfl rfl rfl hstate rfl .cancel
  | cancel =>
    have hstate := hbegun nofun
    simp only [runFrame, cancel, ctlDel] at hgo ⊢
    split_ifs <;> exact h.goesOn rfl rfl rfl rfl hstate rfl .nil
  | sendTask =>
    have hstate := hbegun nofun
    simp only [runFrame, send, enableWriting, update] at hgo ⊢
    split_ifs <;> exact h.goesOn rfl rfl rfl rfl hstate rfl .nil
  | closeTask =>
    have hpop : OfClient { c with frames := [] } := h.goesOn rfl rfl rfl rfl (hbegun nofun) rfl .nil
    exact hpop.close
  | user hbelow =>
    have hstate := hbegun nofun
    cases hbelow with
    | nil => exact h.goesOn rfl rfl rfl rfl hstate rfl .nil
    | lastCall writes => exact h.goesOn rfl rfl rfl rfl hstate hr (.lastCall writes)
    | cancel => exact h.goesOn rfl rfl rfl rfl hstate rfl .cancel
  | send hbelow =>
    have hstate := hbegun nofun
    simp only [runFrame, send, enableWriting, update] at hgo ⊢
    split_ifs <;> exact h.goesOn rfl rfl rfl rfl hstate hr (.user hbelow)
  | firstCall call writes =>
    have hstate := hbegun nofun
    rcases call with _ | _ | _ | _
    · exact h.goesOn rfl rfl rfl rfl hstate hr (.lastCall writes)
    · exact h.goesOn rfl rfl rfl rfl hstate hr (.close writes)
    · exact h.goesOn rfl rfl rfl rfl hstate hr (.lastCall writes)
    · cases io with
      | again => exact h.goesOn rfl rfl rfl rfl hstate hr (.lastCall writes)
      | eof => exact h.goesOn rfl rfl rfl rfl hstate hr (.close writes)
      | error => exact h.goesOn rfl rfl rfl rfl hstate hr (.closeCrash writes)
      | data => exact h.goesOn rfl rfl rfl rfl hstate hr (.user (.lastCall writes))
  | close writes =>
    have hpop : OfClient { c with frames := [.lastCall writes] } :=
      h.goesOn rfl rfl rfl rfl (hbegun nofun) hr (.lastCall writes)
    exact hpop.close
  | closeCrash writes =>
    have hpop : OfClient { c with frames := [.crash, .lastCall writes] } :=
      h.goesOn rfl rfl rfl rfl (hbegun nofun) hr (.crash writes)
    exact hpop.close
  | crash writes => cases hgo
  | lastCall writes =>
    have hstate := hbegun nofun
    cases writes with
    | false => exact h.goesOn rfl rfl rfl rfl hstate rfl .nil
    | true =>
      cases io with
      | error => exact h.goesOn rfl rfl rfl rfl hstate rfl .closeTask
      | again | eof | data => exact h.goesOn rfl rfl rfl rfl hstate rfl .nil

/-- A user callback is not run within the begin of `connectEstablished`. -/
theorem OfClient.user (h : OfClient c) (hf : c.frames.head? = some .user) :
    c.state ≠ .kConnecting ∧ ∃ below, c.frames = .user :: below ∧ Below c.registered below := by
  obtain ⟨below, hbelow⟩ := List.head?_eq_some_iff.mp hf
  obtain ⟨r, hr, hstack⟩ : ∃ r, c.registered = r ∧ Stack r (.user :: below) := ⟨_, rfl, hbelow ▸ h.stack⟩
  refine ⟨fun hconnecting => ?_, below, hbelow, ?_⟩
  · cases hbelow.symm.trans (h.connecting hconnecting)
  · cases hstack with
    | user hunder => exact hr ▸ hunder

theorem OfClient.step {op : Op} (h : OfClient c) (hs : c.step op = some c') (hgo : c'.stopped = false) :
    OfClient c' := by
  cases stepped_of_step hs with
  | run io frame frames hf => exact h.run hf hgo
  | startup frame startup hf hstart =>
    rw [h.startup] at hstart
    cases hstart
  | task frame hf hq =>
    have hstate : c.state ≠ .kConnecting := by
      intro hconnecting
      cases hf.symm.trans (h.connecting hconnecting)
    have htaken : OfClient { c with queue := c.queue.erase frame } :=
      ⟨h.owner, h.startup, h.removals, fun f hf => h.queue f (List.mem_of_mem_erase hf), h.stack,
        h.connecting⟩
    have hstack : Stack c.registered (frame :: c.frames) := by
      rw [hf]
      rcases h.queue frame hq with rfl | rfl | rfl
      · exact .sendTask
      · exact .closeTask
      · exact .connectDestroyed
    exact htaken.goesOn rfl rfl rfl rfl hstate rfl hstack
  | event revent hf hr hstate =>
    refine h.goesOn rfl rfl rfl rfl hstate hr ?_
    simpa only [push, hf] using .firstCall _ _
  | userSend hf =>
    obtain ⟨hstate, below, hbelow, hunder⟩ := h.user hf
    exact h.goesOn rfl rfl rfl rfl hstate rfl (by simpa only [push, hbelow] using .send hunder)
  | otherSend => exact h.queueTask (.inl rfl)
  | userClose | otherClose | disconnect => exact h.queueTask (.inr (.inl rfl))
  | removal hq =>
    rw [h.removals] at hq
    cases hq

/-- The connection when its client is gone: what is left of `connectDestroyed`, and sends. -/
structure Leaving (c : TCPConnection) : Prop where
  closes : .close ∉ c.queue
  frames : ∀ f ∈ c.frames, f = .user ∨ f = .send ∨ f = .cancel ∨ f = .connectDestroyed
  registered : c.registered = true → .cancel ∈ c.frames

theorem Leaving.run {io : IoResult} {frame : Frame} (h : Leaving c) (hf : c.frames = frame :: frames) :
    Leaving ({ c with frames := frames }.runFrame io frame) := by
  have hframes := h.frames
  have hregistered := h.registered
  rw [hf] at hframes hregistered
  obtain ⟨hframe, hrest⟩ := List.forall_mem_cons.mp hframes
  have hbelow (hne : frame ≠ .cancel) (hr : c.registered = true) : .cancel ∈ frames :=
    (List.mem_cons.mp (hregistered hr)).resolve_left (Ne.symm hne)
  rcases hframe with rfl | rfl | rfl | rfl
  · exact ⟨h.closes, hrest, hbelow nofun⟩
  · simp only [runFrame, send, enableWriting, update]
    split_ifs <;> exact ⟨h.closes, hrest, hbelow nofun⟩
  · simp only [runFrame, cancel, ctlDel]
    split_ifs with hr
    · exact ⟨h.closes, hrest, nofun⟩
    · exact ⟨h.closes, hrest, fun hr' => absurd hr' hr⟩
  · have hcancel : ∀ f ∈ Frame.cancel :: frames,
        f = .user ∨ f = .send ∨ f = .cancel ∨ f = .connectDestroyed :=
      List.forall_mem_cons.mpr ⟨.inr (.inr (.inl rfl)), hrest⟩
    simp only [runFrame, connectDestroyed, disableAll, update]
    split_ifs
    · exact ⟨h.closes, List.forall_mem_cons.mpr ⟨.inl rfl, hcancel⟩,
        fun _ => List.mem_cons_of_mem _ List.mem_cons_self⟩
    · exact ⟨h.closes, List.forall_mem_cons.mpr ⟨.inl rfl, hcancel⟩,
        fun _ => List.mem_cons_of_mem _ List.mem_cons_self⟩
    · exact ⟨h.closes, hcancel, fun _ => List.mem_cons_self⟩

theorem Leaving.step {op : Op} (hc : OfClient c) (h : Leaving c) (huser : op ≠ .userClose)
    (hother : op ≠ .otherClose) (hclient : op ≠ .disconnect) (hs : c.step op = some c') : Leaving c' := by
  cases stepped_of_step hs with
  | run io frame frames hf => exact h.run hf
  | startup frame startup hf hstart =>
    rw [hc.startup] at hstart
    cases hstart
  | task frame hf hq =>
    have hframe : frame = .user ∨ frame = .send ∨ frame = .cancel ∨ frame = .connectDestroyed := by
      rcases hc.queue frame hq with rfl | rfl | rfl
      · exact .inr (.inl rfl)
      · exact absurd hq h.closes
      · exact .inr (.inr (.inr rfl))
    exact ⟨fun hclose => h.closes (List.mem_of_mem_erase hclose), List.forall_mem_cons.mpr ⟨hframe, h.frames⟩,
      fun hr => List.mem_cons_of_mem _ (h.registered hr)⟩
  | event revent hf hr hstate =>
    have hcancel := h.registered hr
    rw [hf] at hcancel
    cases hcancel
  | userSend hf =>
    exact ⟨h.closes, List.forall_mem_cons.mpr ⟨.inr (.inl rfl), h.frames⟩,
      fun hr => List.mem_cons_of_mem _ (h.registered hr)⟩
  | otherSend =>
    exact ⟨fun hclose => h.closes ((List.mem_cons.mp hclose).resolve_left nofun), h.frames, h.registered⟩
  | userClose => exact absurd rfl huser
  | otherClose => exact absurd rfl hother
  | disconnect => exact absurd rfl hclient
  | removal hq =>
    rw [hc.removals] at hq
    cases hq

/-- The loop thread goes on. -/
theorem step_run {io : IoResult} {frame : Frame} (hgo : c.stopped = false) (hf : c.frames = frame :: frames) :
    c.step (.run io) = some ({ c with frames := frames }.runFrame io frame) := by
  unfold TCPConnection.step
  simp only [hgo, hf, Bool.false_eq_true, if_false]

/-- A released connection is about to leave. -/
theorem OfClient.leaving (h : OfClient c) (hframes : c.frames.head? = none ∨ c.frames.head? = some .user)
    (hreleased : TCPClient.Released c) : Leaving c := by
  refine ⟨hreleased.closes, fun f hf => ?_, fun hr => ?_⟩
  · rcases hframes with hnone | huser
    · rw [List.head?_eq_none_iff.mp hnone] at hf
      cases hf
    · obtain ⟨-, below, hbelow, hunder⟩ := h.user huser
      obtain ⟨r, hr, hunder⟩ : ∃ r, c.registered = r ∧ Below r below := ⟨_, rfl, hunder⟩
      rw [hbelow] at hf
      cases hunder with
      | nil =>
        cases List.mem_singleton.mp hf
        exact .inl rfl
      | lastCall writes => cases hbelow.symm.trans (hreleased.registered hr)
      | cancel =>
        rcases List.mem_cons.mp hf with rfl | hf
        · exact .inl rfl
        · exact .inr (.inr (.inl (List.mem_singleton.mp hf)))
  · rw [hreleased.registered hr]
    exact List.mem_cons_of_mem _ List.mem_cons_self

end TCPConnection

namespace TCPClient

variable {s t : TCPClient} {c : TCPConnection}

/-! ## Every run -/

/-- The client has been destroyed in time. -/
structure Gone (s : TCPClient) : Prop where
  ended : Over s
  connection : ∀ c, s.connection = some c → c.Leaving

/-- The invariant of the runs in which the users are careful. -/
structure Inv (s : TCPClient) : Prop where
  dangling : s.dangling = false
  connection : s.stopped = false → ∀ c, s.connection = some c → c.OfClient
  gone : s.alive = false → Gone s

theorem inv_initial : Inv initial := ⟨rfl, nofun, nofun⟩

theorem Inv.untouched (h : Inv s) : Untouched s :=
  ⟨h.dangling, fun hdead c hc => ((h.gone hdead).connection c hc).closes⟩

/-- As long as the client is there, only its connection has anything to keep. -/
theorem inv_of_alive (halive : s.alive = true) (hdangling : s.dangling = false)
    (hconnection : s.stopped = false → ∀ c, s.connection = some c → c.OfClient) : Inv s :=
  ⟨hdangling, hconnection, fun hdead => nomatch halive.symm.trans hdead⟩

theorem startInLoop_of_alive (halive : s.alive = true) (r : ConnectResult) :
    s.startInLoop r = { s with connector := s.connector.startInLoop r } := by
  refine if_neg ?_
  rintro ⟨-, hdead⟩
  cases halive.symm.trans hdead

/-- A call that fails its assertion. -/
theorem startInLoop_of_ne (hstate : s.connector.state ≠ .Disconnected) (r : ConnectResult) :
    s.startInLoop r = { s with connector := s.connector.fail .assertFailed } := by
  unfold startInLoop Connector.startInLoop
  rw [if_neg fun hdead => hstate hdead.1, if_neg hstate]

/-- An attempt of a client that is gone. -/
theorem startInLoop_of_gone (hstate : s.connector.state = .Disconnected) (hdead : s.alive = false)
    (r : ConnectResult) : s.startInLoop r = s.dangle := if_pos ⟨hstate, hdead⟩

/-- What is still to start when the client is gone comes too late for it. -/
theorem Inv.late (h : Inv s) (hdead : s.alive = false) (hsome : 0 < s.starts ∨ 0 < s.connector.retryTimers) :
    s.connector.state ≠ .Disconnected := by
  intro hstate
  obtain ⟨hstarts, htimers⟩ := (h.gone hdead).ended.attempts hstate
  omega

/-- Between the attempts the connector may be started, with the client there or gone. -/
theorem Inv.startInLoop (h : Inv s) (hgo : s.stopped = false)
    (hlate : s.alive = false → s.connector.state ≠ .Disconnected) (r : ConnectResult) :
    Inv (s.startInLoop r) := by
  cases halive : s.alive with
  | true =>
    rw [startInLoop_of_alive halive]
    exact inv_of_alive halive h.dangling fun _ => h.connection hgo
  | false =>
    have hstate := hlate halive
    have hgone := h.gone halive
    rw [startInLoop_of_ne hstate]
    exact ⟨h.dangling, fun _ => h.connection hgo,
      fun _ => ⟨⟨hgone.ended.channel, fun hs => absurd hs hstate⟩, hgone.connection⟩⟩

theorem Inv.handleEvent (h : Inv s) (hgo : s.stopped = false) (halive : s.alive = true) (revent : Revent)
    (soError : Option Errc) : Inv (s.handleEvent revent soError) := by
  unfold TCPClient.handleEvent newConnection
  dsimp only
  rw [if_pos halive]
  split_ifs
  · refine inv_of_alive halive h.dangling fun _ c hc => ?_
    cases hc
    exact TCPConnection.ofClient_initial
  · exact inv_of_alive halive h.dangling fun _ => h.connection hgo

theorem connection_not_stopped (hgo : s.stopped = false) (hc : s.connection = some c) :
    c.stopped = false := by
  unfold stopped at hgo
  rw [hc, Option.any_some, Bool.or_eq_false_iff] at hgo
  exact hgo.2

theorem Inv.disconnect (h : Inv s) (hgo : s.stopped = false) (halive : s.alive = true) :
    Inv s.disconnect := by
  refine inv_of_alive halive h.dangling fun hgo' c hc => ?_
  obtain ⟨c₀, hc₀, rfl⟩ := Option.map_eq_some_iff.mp hc
  have hgo' := connection_not_stopped hgo' hc
  cases hstep : c₀.step .disconnect with
  | none => simpa only [hstep, Option.getD_none] using h.connection hgo c₀ hc₀
  | some c =>
    rw [hstep, Option.getD_some] at hgo'
    simpa only [hstep, Option.getD_some] using (h.connection hgo c₀ hc₀).step hstep hgo'

/-- What is done on the connection; a client that is gone is not used, and no close is queued. -/
theorem Inv.connectionStep {op : TCPConnection.Op} (h : Inv s) (hgo : s.stopped = false)
    (hc : s.connection = some c) (hg : s.Careful (.connection op)) (hs : s.connectionStep c op = some t) :
    Inv t := by
  have hclient := h.connection hgo c hc
  have hbegun (hdead : s.alive = false) : ¬ c.frames.head? = some .close := by
    intro hclose
    obtain ⟨below, hbelow⟩ := List.head?_eq_some_iff.mp hclose
    have hmem := ((h.gone hdead).connection c hc).frames .close (hbelow ▸ List.mem_cons_self)
    simp at hmem
  obtain ⟨hop, c', hstep, rfl⟩ :
      op ≠ .disconnect ∧ ∃ c', c.step op = some c' ∧ { s with connection := some c' } = t := by
    unfold TCPClient.connectionStep at hs
    cases op with
    | disconnect => cases hs
    | run io =>
      dsimp only at hs
      rw [if_neg fun hclose => hbegun hclose.2 hclose.1] at hs
      exact ⟨nofun, Option.map_eq_some_iff.mp hs⟩
    | startup | task | event | userSend | userClose | otherSend | otherClose | removal =>
      exact ⟨nofun, Option.map_eq_some_iff.mp hs⟩
  refine ⟨h.dangling, fun hgo' c₁ hc₁ => ?_, fun hdead => ⟨{ (h.gone hdead).ended with }, fun c₁ hc₁ => ?_⟩⟩
  · cases hc₁
    exact hclient.step hstep (connection_not_stopped hgo' rfl)
  · cases hc₁
    -- The users of a client that is gone do not close its connection.
    have huser : op ≠ .userClose := fun heq => by
      subst heq
      cases hdead.symm.trans hg
    have hother : op ≠ .otherClose := fun heq => by
      subst heq
      cases hdead.symm.trans hg
    exact ((h.gone hdead).connection c hc).step hclient huser hother hop hstep

/-- A client that is quiet is destroyed in time. -/
theorem Inv.destroy (h : Inv s) (hgo : s.stopped = false)
    (hframes : s.frames.head? = none ∨ s.frames.head? = some .user) (hquiet : s.Quiet) : Inv s.destroy := by
  refine ⟨h.dangling, fun _ c hc => ?_, fun _ => ⟨{ hquiet.ended with }, fun c hc => ?_⟩⟩
  · obtain ⟨c₀, hc₀, rfl⟩ := Option.map_eq_some_iff.mp hc
    exact { h.connection hgo c₀ hc₀ with }
  · obtain ⟨c₀, hc₀, rfl⟩ := Option.map_eq_some_iff.mp hc
    unfold frames at hframes
    rw [hc₀, Option.elim_some] at hframes
    exact { (h.connection hgo c₀ hc₀).leaving hframes (hquiet.connection c₀ hc₀) with }

theorem Inv.step {op : Op} (h : Inv s) (hg : s.Careful op) (hs : s.step op = some t) : Inv t := by
  obtain ⟨hgo, hs⟩ := Option.ite_none_left_eq_some.mp hs
  have hgo := (Bool.not_eq_true _).mp hgo
  cases op with
  | connect =>
    have halive : s.alive = true := hg
    dsimp only at hs
    rw [if_pos halive] at hs
    cases hs
    exact inv_of_alive halive h.dangling fun _ => h.connection hgo
  | connectInLoop r =>
    have halive : s.alive = true := hg
    obtain ⟨-, hs⟩ := Option.ite_none_right_eq_some.mp hs
    rw [if_pos halive] at hs
    cases hs
    exact h.startInLoop hgo (fun hdead => nomatch hdead.symm.trans halive) r
  | disconnect =>
    have halive : s.alive = true := hg
    dsimp only at hs
    rw [if_pos halive] at hs
    cases hs
    exact h.disconnect hgo halive
  | start r =>
    obtain ⟨⟨-, hstarts⟩, hs⟩ := Option.ite_none_right_eq_some.mp hs
    cases hs
    have hlate (hdead : s.alive = false) := h.late hdead (.inl hstarts)
    have htaken : Inv { s with starts := s.starts - 1 } :=
      ⟨h.dangling, h.connection, fun hdead =>
        ⟨⟨(h.gone hdead).ended.channel, fun hs => absurd hs (hlate hdead)⟩, (h.gone hdead).connection⟩⟩
    exact htaken.startInLoop hgo hlate r
  | timer r =>
    obtain ⟨⟨-, htimers⟩, hs⟩ := Option.ite_none_right_eq_some.mp hs
    cases hs
    have hlate (hdead : s.alive = false) := h.late hdead (.inr htimers)
    have htaken :
        Inv { s with connector := { s.connector with retryTimers := s.connector.retryTimers - 1 } } :=
      ⟨h.dangling, h.connection, fun hdead =>
        ⟨⟨(h.gone hdead).ended.channel, fun hs => absurd hs (hlate hdead)⟩, (h.gone hdead).connection⟩⟩
    exact htaken.startInLoop hgo hlate r
  | event revent soError =>
    obtain ⟨⟨-, hchannel⟩, hs⟩ := Option.ite_none_right_eq_some.mp hs
    cases hs
    cases halive : s.alive with
    | true => exact h.handleEvent hgo halive revent soError
    | false => cases (h.gone halive).ended.channel.symm.trans hchannel
  | connection op =>
    obtain ⟨c, hc, hs⟩ := Option.bind_eq_some_iff.mp hs
    exact h.connectionStep hgo hc hg hs
  | destroy =>
    obtain ⟨hframes, hs⟩ := Option.ite_none_right_eq_some.mp hs
    rw [if_pos hg.1] at hs
    cases hs
    exact h.destroy hgo hframes hg.2

/-! ## What the loop does with a client that is gone -/

/-- A step of the loop that uses a client that is gone. -/
theorem breaks_of_dangle {op : Op} (h : ∃ u : TCPClient, s.step op = some u.dangle) (hop : Looped op) :
    Machine.Breaks step Untouched Looped s := by
  obtain ⟨u, hu⟩ := h
  exact .of_step hop hu (Machine.breaks_of_not fun hnot => nomatch hnot.dangling)

/-- The program goes on with another state of the connection. -/
theorem stopped_connection {c' : TCPConnection} (hgo : s.stopped = false) (hgo' : c'.stopped = false) :
    stopped { s with connection := some c' } = false := by
  unfold stopped at hgo ⊢
  rw [Bool.or_eq_false_iff] at hgo
  rw [Option.any_some, hgo', Bool.or_false]
  exact hgo.1

/-- The loop thread goes on, and does not call the client. -/
theorem step_run {io : IoResult} {frame : Frame} {frames : List Frame} (hgo : s.stopped = false)
    (hc : s.connection = some c) (hf : c.frames = frame :: frames) (hclose : frame ≠ .close) :
    s.step (.connection (.run io)) =
      some { s with connection := some ({ c with frames := frames }.runFrame io frame) } := by
  have hhead : ¬ (c.frames.head? = some .close ∧ s.alive = false) := by
    rw [hf]
    exact fun h => hclose (Option.some.inj h.1)
  unfold step connectionStep
  simp only [hgo, hc, Option.bind_some, if_neg hhead,
    TCPConnection.step_run (connection_not_stopped hgo hc) hf,
    Option.map_some, Bool.false_eq_true, if_false]

/-- An attempt that succeeds calls `newConnection`. -/
theorem handleEvent_of_gone (hfault : s.connector.fault = none) (hchannel : s.connector.channel = true)
    (hdead : s.alive = false) : ∃ u : TCPClient, s.handleEvent Revent.POLLOUT none = u.dangle := by
  have hconnected : { s.connector with soError := none }.handleEvent Revent.POLLOUT =
      Connector.connected { s.connector with soError := none } := by
    have hcall : Reactor.firstCall Revent.POLLOUT = none := by decide
    have hwrites : Reactor.callsWrite Revent.POLLOUT = true := by decide
    unfold Connector.handleEvent
    simp only [hcall, hwrites, Connector.firstCall, hfault, hchannel, Option.isSome_none, Bool.false_eq_true,
      if_false, if_true, reduceCtorEq, Connector.unixHandleWrite]
  have hdelivers :
      delivers s.connector ({ s.connector with soError := none }.handleEvent Revent.POLLOUT) = true := by
    rw [hconnected]
    simp only [delivers, Connector.connected, Connector.finish, hchannel, if_true, Bool.not_false,
      Bool.and_true,
      decide_true]
  have hgone : ¬ s.alive = true := by rw [hdead]; nofun
  exact ⟨_, (if_pos hdelivers).trans (if_neg hgone)⟩

/-- An attempt that goes on or is to come uses the client. -/
theorem breaks_of_not_over (hgo : s.stopped = false) (hdead : s.alive = false) (hframes : s.frames = [])
    (hover : ¬ Over s) : Machine.Breaks step Untouched Looped s := by
  have hfault : s.connector.fault = none := by
    unfold stopped at hgo
    rw [Bool.or_eq_false_iff, Bool.or_eq_false_iff] at hgo
    simpa using hgo.1.2
  have hrunning : ¬ s.stopped = true := by rw [hgo]; nofun
  cases hchannel : s.connector.channel with
  | true =>
    obtain ⟨u, hu⟩ := handleEvent_of_gone hfault hchannel hdead
    have hstep : s.step (.event Revent.POLLOUT none) = some u.dangle :=
      (if_neg hrunning).trans ((if_pos ⟨hframes, hchannel⟩).trans (congrArg some hu))
    exact breaks_of_dangle ⟨u, hstep⟩ trivial
  | false =>
    have hattempts : ¬ (s.connector.state = .Disconnected → s.starts = 0 ∧ s.connector.retryTimers = 0) :=
      fun h => hover ⟨hchannel, h⟩
    obtain ⟨hstate, hattempts⟩ := Classical.not_imp.mp hattempts
    rcases Nat.eq_zero_or_pos s.starts with hnone | hstarts
    · have htimers : 0 < s.connector.retryTimers := Nat.pos_of_ne_zero fun h => hattempts ⟨hnone, h⟩
      let taken : TCPClient :=
        { s with connector := { s.connector with retryTimers := s.connector.retryTimers - 1 } }
      have hstep : s.step (.timer .accepted) = some taken.dangle :=
        (if_neg hrunning).trans ((if_pos ⟨hframes, htimers⟩).trans
          (congrArg some (startInLoop_of_gone (s := taken) hstate hdead .accepted)))
      exact breaks_of_dangle ⟨taken, hstep⟩ trivial
    · let taken : TCPClient := { s with starts := s.starts - 1 }
      have hstep : s.step (.start .accepted) = some taken.dangle :=
        (if_neg hrunning).trans ((if_pos ⟨hframes, hstarts⟩).trans
          (congrArg some (startInLoop_of_gone (s := taken) hstate hdead .accepted)))
      exact breaks_of_dangle ⟨taken, hstep⟩ trivial

/-- A hang-up on a connection that has not left calls `removeConnection`. -/
theorem breaks_of_registered (hgo : s.stopped = false) (hdead : s.alive = false) (hc : s.connection = some c)
    (hframes : c.frames = []) (hr : c.registered = true) (hstate : c.state ≠ .kConnecting) :
    Machine.Breaks step Untouched Looped s := by
  have hcgo := connection_not_stopped hgo hc
  let c₁ : TCPConnection := { c with frames := [.firstCall (some .handleClose), .lastCall false] }
  let c₂ : TCPConnection := { c with frames := [.close, .lastCall false] }
  have hgo₁ : stopped { s with connection := some c₁ } = false := stopped_connection hgo hcgo
  have hgo₂ : stopped { s with connection := some c₂ } = false := stopped_connection hgo hcgo
  have hevent : s.step (.connection (.event Revent.POLLHUP)) = some { s with connection := some c₁ } := by
    have hcall : Reactor.firstCall Revent.POLLHUP = some .handleClose := by decide
    have hwrites : Reactor.callsWrite Revent.POLLHUP = false := by decide
    have hstep : c.step (.event Revent.POLLHUP) = some c₁ := by
      unfold TCPConnection.step
      simp only [hcgo, hframes, hr, hstate, hcall, hwrites, TCPConnection.push, ne_eq, not_false_eq_true,
        and_true,
        Bool.false_eq_true, if_false, if_true, c₁]
    unfold step connectionStep
    simp only [hgo, hc, hstep, Option.bind_some, Option.map_some, Bool.false_eq_true, if_false]
  have hcall : step { s with connection := some c₁ } (.connection (.run .again)) =
      some { s with connection := some c₂ } :=
    step_run hgo₁ rfl rfl nofun
  have hclose : step { s with connection := some c₂ } (.connection (.run .again)) =
      some (dangle { s with connection := some c₂ }) := by
    unfold step connectionStep
    rw [hgo₂, if_neg Bool.false_ne_true]
    exact if_pos ⟨rfl, hdead⟩
  exact .of_step (a := .connection (.event Revent.POLLHUP)) trivial hevent
    (.of_step (a := .connection (.run .again)) trivial hcall (breaks_of_dangle ⟨_, hclose⟩ trivial))

/-- What the loop thread has begun, in a callback of which the client was destroyed, comes to its end. -/
theorem breaks_of_settled (hgo : s.stopped = false) (hc : s.connection = some c) (hclient : c.OfClient)
    (hframes : c.frames.head? = none ∨ c.frames.head? = some .user)
    (hbreaks : ∀ c' : TCPConnection, c'.frames = [] → c'.stopped = false → c'.state = c.state →
      (c.frames ≠ [.user, .cancel] → c'.registered = c.registered) →
      Machine.Breaks step Untouched Looped { s with connection := some c' }) :
    Machine.Breaks step Untouched Looped s := by
  have hcgo := connection_not_stopped hgo hc
  rcases hframes with hnone | huser
  · have hbreaks := hbreaks c (List.head?_eq_none_iff.mp hnone) hcgo rfl fun _ => rfl
    rwa [← hc] at hbreaks
  obtain ⟨-, below, hbelow, hunder⟩ := hclient.user huser
  let c₁ : TCPConnection := { c with frames := below }
  have hreturns : s.step (.connection (.run .again)) = some { s with connection := some c₁ } :=
    step_run hgo hc hbelow nofun
  have hgo₁ : stopped { s with connection := some c₁ } = false := stopped_connection hgo hcgo
  refine .of_step (a := .connection (.run .again)) trivial hreturns ?_
  obtain ⟨r, hr, hunder⟩ : ∃ r, c.registered = r ∧ TCPConnection.Below r below := ⟨_, rfl, hunder⟩
  cases hunder with
  | nil => exact hbreaks c₁ rfl hcgo rfl fun _ => rfl
  | lastCall writes =>
    let c₂ : TCPConnection := { c with frames := [] }
    have hends : step { s with connection := some c₁ } (.connection (.run .again)) =
        some { s with connection := some c₂ } := by
      rw [step_run hgo₁ rfl rfl nofun]
      cases writes <;> rfl
    exact .of_step (a := .connection (.run .again)) trivial hends (hbreaks c₂ rfl hcgo rfl fun _ => rfl)
  | cancel =>
    let c₂ : TCPConnection :=
      { c with
        frames := []
        registered := false
        cancelWithFlags := c.cancelWithFlags || c.reading || c.writing }
    have hends : step { s with connection := some c₁ } (.connection (.run .again)) =
        some { s with connection := some c₂ } := by
      rw [step_run hgo₁ rfl rfl nofun]
      simp only [TCPConnection.runFrame, TCPConnection.cancel, TCPConnection.ctlDel, hr, if_true, c₁, c₂]
    exact .of_step (a := .connection (.run .again)) trivial hends
      (hbreaks c₂ rfl hcgo rfl fun hne => absurd hbelow hne)

theorem not_untouched_of_queued (hdead : s.alive = false) (hc : s.connection = some c)
    (hclose : .close ∈ c.queue) : ¬ Untouched s := fun h => h.closes hdead c hc hclose

/-- A connection that is not released is left to close itself. -/
theorem breaks_of_not_released (hgo : s.stopped = false) (hdead : s.alive = false)
    (hc : s.connection = some c) (hclient : c.OfClient)
    (hframes : c.frames.head? = none ∨ c.frames.head? = some .user) (hreleased : ¬ Released c) :
    Machine.Breaks step Untouched Looped s := by
  by_cases hclose : .close ∈ c.queue
  · exact Machine.breaks_of_not (not_untouched_of_queued hdead hc hclose)
  have hregistered : ¬ (c.registered = true → c.frames = [.user, .cancel]) := fun h => hreleased ⟨hclose, h⟩
  obtain ⟨hr, hne⟩ := Classical.not_imp.mp hregistered
  have hstate : c.state ≠ .kConnecting := by
    intro hconnecting
    rw [hclient.connecting hconnecting] at hframes
    simp at hframes
  refine breaks_of_settled hgo hc hclient hframes fun c' hframes' hgo' hstate' hr' => ?_
  have hregistered' := (hr' hne).trans hr
  exact breaks_of_registered (stopped_connection hgo hgo') hdead rfl hframes' hregistered' (hstate' ▸ hstate)

/-- A client that is destroyed too early. -/
theorem Inv.breaks_destroy (h : Inv s) (hgo : s.stopped = false)
    (hframes : s.frames.head? = none ∨ s.frames.head? = some .user) (hquiet : ¬ s.Quiet) :
    Machine.Breaks TCPClient.step Untouched Looped s.destroy := by
  cases hc : s.connection with
  | none =>
    have hnone : s.destroy.connection = none := by rw [TCPClient.destroy, hc, Option.map_none]
    have hgo' : s.destroy.stopped = false := by
      unfold stopped at hgo ⊢
      rw [hnone]
      rwa [hc] at hgo
    refine breaks_of_not_over hgo' rfl (by rw [TCPClient.frames, hnone, Option.elim_none]) fun hover => ?_
    exact hquiet ⟨{ hover with }, fun c hc' => nomatch hc.symm.trans hc'⟩
  | some c =>
    have hsome : s.destroy.connection = some { c with owned := false } := by
      rw [TCPClient.destroy, hc, Option.map_some]
    have hcgo := connection_not_stopped hgo hc
    have hclient : TCPConnection.OfClient { c with owned := false } := { h.connection hgo c hc with }
    have hgo' : s.destroy.stopped = false := by
      unfold stopped at hgo ⊢
      rw [hsome]
      rwa [hc] at hgo
    unfold TCPClient.frames at hframes
    rw [hc, Option.elim_some] at hframes
    by_cases hover : Over s
    · refine breaks_of_not_released hgo' rfl hsome hclient hframes fun hreleased => ?_
      refine hquiet ⟨hover, fun c' hc' => ?_⟩
      cases hc.symm.trans hc'
      exact { hreleased with }
    · refine breaks_of_settled hgo' hsome hclient hframes fun c' hframes' hcgo' _ _ => ?_
      exact breaks_of_not_over (stopped_connection hgo' hcgo') rfl hframes' fun hover' =>
        hover { hover' with }

/-- A step of users that are not careful. -/
theorem Inv.breaks {op : Op} (h : Inv s) (hg : ¬ s.Careful op) (hs : s.step op = some t) :
    Machine.Breaks TCPClient.step Untouched Looped t := by
  obtain ⟨hgo, hs⟩ := Option.ite_none_left_eq_some.mp hs
  have hgo := (Bool.not_eq_true _).mp hgo
  have hdangle (u : TCPClient) : Machine.Breaks TCPClient.step Untouched Looped u.dangle :=
    Machine.breaks_of_not fun hnot => nomatch hnot.dangling
  cases op with
  | start | timer | event => exact absurd trivial hg
  | connect | disconnect =>
    have hdead : ¬ s.alive = true := hg
    dsimp only at hs
    rw [if_neg hdead] at hs
    cases hs
    exact hdangle s
  | connectInLoop r =>
    have hdead : ¬ s.alive = true := hg
    obtain ⟨-, hs⟩ := Option.ite_none_right_eq_some.mp hs
    rw [if_neg hdead] at hs
    cases hs
    exact hdangle s
  | connection op =>
    obtain ⟨c, hc, hs⟩ := Option.bind_eq_some_iff.mp hs
    cases op with
    | disconnect => cases hs
    | startup | task | event | userSend | otherSend | removal | run => exact absurd trivial hg
    | userClose | otherClose =>
      obtain ⟨c', hc', rfl⟩ := Option.map_eq_some_iff.mp hs
      cases TCPConnection.stepped_of_step hc'
      exact Machine.breaks_of_not
        (not_untouched_of_queued ((Bool.not_eq_true _).mp hg) rfl List.mem_cons_self)
  | destroy =>
    obtain ⟨hframes, hs⟩ := Option.ite_none_right_eq_some.mp hs
    by_cases halive : s.alive = true
    · rw [if_pos halive] at hs
      cases hs
      exact h.breaks_destroy hgo hframes fun hquiet => hg ⟨halive, hquiet⟩
    · rw [if_neg halive] at hs
      cases hs
      exact hdangle s

/-- No run uses the client after its destruction, whatever the loop does next, exactly when the users are
careful throughout. -/
theorem untouched_iff_careful (ops : List Op) :
    Machine.Robust step Untouched Looped initial ops ↔ Machine.Meets step Careful initial ops := by
  have hlooped : ∀ (s : TCPClient) (op : Op), Looped op → s.Careful op :=
    fun s _ hop => careful_of_looped s hop
  have hstep :
      ∀ (s : TCPClient) (op : Op) (t : TCPClient), Inv s → s.Careful op → s.step op = some t → Inv t :=
    fun _ _ _ h hg hs => h.step hg hs
  have hbreaks : ∀ (s : TCPClient) (op : Op) (t : TCPClient), Inv s → ¬ s.Careful op → s.step op = some t →
      Machine.Breaks step Untouched Looped t := fun _ _ _ h hg hs => h.breaks hg hs
  exact Machine.robust_iff_meets (I := Inv) (fun _ h => h.untouched) hlooped hstep hbreaks inv_initial

/-- A client is destroyed by the callback that tells it of a hang-up. -/
example : (Machine.run step initial [.connect, .start .accepted, .event Revent.POLLOUT none,
    .connection (.run .again), .connection (.run .again), .connection (.event Revent.POLLHUP),
    .connection (.run .again), .connection (.run .again), .connection (.run .again),
    .connection (.task .connectDestroyed), .connection (.run .again), .destroy, .connection (.run .again),
    .connection (.run .again)]).map (fun s => (s.alive, s.dangling)) = some (false, false) := by
  decide +kernel

end TCPClient

end Hulatang
