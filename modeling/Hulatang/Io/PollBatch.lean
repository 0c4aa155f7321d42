import Hulatang.Io.ServerTables

/-!
# The events of one `epoll_wait`

`EPollFdEventManager::processEvent` takes the channels of a batch of events one after the other out of
`events`, as raw pointers, while the handlers of the first ones close connections and other loops go on. In no
run is one of them destroyed when its turn comes (`handled_of_run`). A loop runs its tasks after the batch,
and an event closes no connection but its own; so until then the table of the loop keeps what it has.

What an event may find is a channel whose handler is not set: `acceptInLoop` and `newConnection` queue the
`add` and the `connectEstablished` as two tasks, and a loop may poll in between, where a hang-up is reported
whatever the channel waits for. This is so on the worker loops only. On the base loop it is the connection's
own close that destroys it, unless the user has a pointer to it, and `Reactor::handleEvent` goes on with
`channel->revent`.
-/

namespace Hulatang

/-- How `processEvent` fails. -/
inductive DispatchFault
  /-- The channel has been destroyed. -/
  | destroyed
  /-- `handlerCallback` is empty, and throws `std::bad_function_call`. -/
  | noHandler (c : ConnId)
  /-- `closeCallback` has destroyed the channel whose `revent` is tested next. -/
  | revent (c : ConnId)
  deriving DecidableEq

/-- A server whose loops poll. -/
structure PolledServer where
  server : TCPServer
  /-- The channels in `events` of each loop that are still to be handled. -/
  events : ℕ → List ConnId
  fault : Option DispatchFault

/-- The loop on whose own time something runs: it is not handling events then. -/
def TCPServer.taskOf (s : TCPServer) : TCPServer.Op → Option ℕ
  | .task c | .close c => some (s.conn c).loop
  | .removal _ => some 0
  | .accept _ _ | .hold _ | .drop _ => none

namespace PolledServer

def initial (pool : EventLoopThreadPool ℕ) : PolledServer := ⟨.initial pool, fun _ => [], none⟩

def fail (s : PolledServer) (fault : DispatchFault) : PolledServer := { s with fault := some fault }

def setEvents (s : PolledServer) (loop : ℕ) (channels : List ConnId) : PolledServer :=
  { s with events := Function.update s.events loop channels }

/-- The steps of a run. -/
inductive Op
  /-- `epoll_wait` of a loop returns. -/
  | wait (loop : ℕ) (ready : List ConnId)
  /-- The loop handles the next event; of a hang-up, or at the end of file, `handleEvent` calls
  `closeCallback`. A user who copies the pointer in the callbacks of that has held it before here. -/
  | event (loop : ℕ) (hangup : Bool)
  /-- The base loop accepts, or a loop runs a task, also one of those that `shutdown` has queued. -/
  | server (op : TCPServer.Op)
  deriving DecidableEq

/-- `epoll_wait` reports channels that the loop has, each of them once. -/
def Reports (s : TCPServer) (loop : ℕ) (ready : List ConnId) : Prop :=
  ready.Nodup ∧ ∀ c ∈ ready, c < s.made ∧ (s.conn c).loop = loop ∧ s.Registered c

instance (s : TCPServer) (loop : ℕ) (ready : List ConnId) : Decidable (Reports s loop ready) :=
  inferInstanceAs (Decidable (_ ∧ _))

/-- `channel->revent & POLLOUT`, behind what `handleEvent` has called. -/
def testRevent (s : PolledServer) (c : ConnId) : PolledServer :=
  if s.server.fault = none ∧ s.server.alive c = false then s.fail (.revent c) else s

/-- `channel->handler()`. -/
def handle (s : PolledServer) (c : ConnId) (hangup : Bool) : Option PolledServer :=
  if s.server.alive c = false then some (s.fail .destroyed)
  else if (s.server.conn c).state = .kConnecting then some (s.fail (.noHandler c))
  else if hangup then
    (s.server.step (.close c)).map fun server => ({ s with server := server } : PolledServer).testRevent c
  else some (s.testRevent c)

/-- One step. -/
def step (s : PolledServer) (op : Op) : Option PolledServer :=
  if s.fault = none ∧ s.server.fault = none then
    match op with
    | .wait loop ready =>
      if s.events loop = [] ∧ Reports s.server loop ready then some (s.setEvents loop ready) else none
    | .event loop hangup =>
      match s.events loop with
      | [] => none
      | c :: rest => (s.setEvents loop rest).handle c hangup
    | .server op =>
      if ∀ loop ∈ s.server.taskOf op, s.events loop = [] then
        (s.server.step op).map fun server => { s with server := server }
      else none
  else none

end PolledServer

/-! ## What a step leaves of another connection -/

namespace TCPServer

variable {p : EventLoopThreadPool ℕ} {s s' : TCPServer} {b c : ConnId} {r : Prop}

/-- A step that keeps the connection `b` on its loop, and in its table if `r`. -/
structure Keeps (b : ConnId) (r : Prop) (s s' : TCPServer) : Prop where
  loop : (s'.conn b).loop = (s.conn b).loop
  connecting : (s'.conn b).state = .kConnecting → (s.conn b).state = .kConnecting
  registered : r → s.Registered b → s'.Registered b

theorem Keeps.refl (b : ConnId) (r : Prop) (s : TCPServer) : Keeps b r s s :=
  ⟨rfl, id, fun _ => id⟩

theorem keeps_fail (fault : ServerFault) : Keeps b r s (s.fail fault) :=
  ⟨rfl, id, fun _ => id⟩

theorem Keeps.trans {s₁ s₂ s₃ : TCPServer} (h : Keeps b r s₁ s₂) (h' : Keeps b r s₂ s₃) : Keeps b r s₁ s₃ :=
  ⟨h'.loop.trans h.loop, fun hs => h.connecting (h'.connecting hs),
    fun hr hb => h'.registered hr (h.registered hr hb)⟩

theorem Keeps.mono {r' : Prop} (h : Keeps b r s s') (hr : r' → r) : Keeps b r' s s' :=
  ⟨h.loop, h.connecting, fun hr' => h.registered (hr hr')⟩

/-- A connection is written that stays where it is. -/
theorem keeps_setConn {conn : Conn} (hloop : conn.loop = (s.conn c).loop) (hfd : conn.fd = (s.conn c).fd)
    (hs : conn.state = .kConnecting → (s.conn c).state = .kConnecting) : Keeps b r s (s.setConn c conn) := by
  by_cases hb : b = c
  · subst hb
    refine ⟨?_, ?_, fun _ => (registered_setConn hfd hloop).mpr⟩
    · rw [setConn_self]
      exact hloop
    · rw [setConn_self]
      exact hs
  · have hother : (s.setConn c conn).conn b = s.conn b := Function.update_of_ne hb ..
    refine ⟨by rw [hother], by rw [hother]; exact id, fun _ => ?_⟩
    unfold Registered
    rw [hother]
    exact id

/-- A channel is put into a place that is free. -/
theorem keeps_setChannel_some (hfree : s.channels (s.conn c).loop (s.conn c).fd = none) :
    Keeps b r s (s.setChannel c (some c)) := by
  refine ⟨rfl, id, fun _ hb => ?_⟩
  unfold Registered setChannel at *
  dsimp only
  rw [if_neg]
  · exact hb
  · rintro ⟨hloop, hfd⟩
    rw [hloop, hfd, hfree] at hb
    cases hb

/-- A channel is taken out of its place. -/
theorem keeps_setChannel_none (hc : s.Registered c) : Keeps b (b ≠ c) s (s.setChannel c none) := by
  refine ⟨rfl, id, fun hbc hb => ?_⟩
  unfold Registered setChannel at *
  dsimp only
  rw [if_neg]
  · exact hb
  · rintro ⟨hloop, hfd⟩
    rw [hloop, hfd, hc] at hb
    exact hbc (Option.some.inj hb).symm

theorem keeps_add : Keeps b r s (s.add c) := by
  unfold add
  split_ifs with halive hfree
  · exact keeps_fail .dangling
  · exact keeps_fail .occupied
  · exact keeps_setChannel_some (not_not.mp hfree)

theorem keeps_connectEstablished : Keeps b r s (s.connectEstablished c) := by
  unfold connectEstablished
  split_ifs with hs hr
  · exact keeps_fail .notConnecting
  · exact keeps_setConn rfl rfl StateE.noConfusion
  · exact keeps_fail .ctl

theorem keeps_connectDestroyed : Keeps b (b ≠ c) s (s.connectDestroyed c) := by
  unfold connectDestroyed
  split_ifs with hr hs
  · exact (keeps_setChannel_none hr).trans (keeps_setConn rfl rfl StateE.noConfusion)
  · exact (keeps_setChannel_none hr).trans (keeps_setConn rfl rfl id)
  · exact keeps_fail .ctl

theorem keeps_runTask {task : ServerTask} (hr : r → task = .connectDestroyed → b ≠ c) :
    Keeps b r s (s.runTask c task) := by
  cases task with
  | add => exact keeps_add
  | connectEstablished => exact keeps_connectEstablished
  | connectDestroyed => exact keeps_connectDestroyed.mono fun h => hr h rfl

theorem keeps_runInLoop {task : ServerTask}
    (hr : r → task = .connectDestroyed → (s.conn c).loop = 0 → b ≠ c) : Keeps b r s (s.runInLoop c task) := by
  unfold runInLoop
  split_ifs with hbase
  · exact keeps_runTask fun h htask => hr h htask hbase
  · exact keeps_setConn rfl rfl id

theorem keeps_removeInLoop : Keeps b ((s.conn c).loop = 0 → b ≠ c) s (s.removeInLoop c) := by
  have hwithout : Keeps b ((s.conn c).loop = 0 → b ≠ c) s (s.without c) :=
    ⟨rfl, id, fun _ => id⟩
  unfold removeInLoop
  dsimp only
  split_ifs with hfound
  · exact hwithout.trans (keeps_runInLoop fun h _ hbase => h hbase)
  · exact hwithout.trans (keeps_fail .notRemoved)

theorem keeps_removeConnection : Keeps b ((s.conn c).loop = 0 → b ≠ c) s (s.removeConnection c) := by
  unfold removeConnection
  split_ifs with hbase
  · exact keeps_removeInLoop
  · exact keeps_setConn rfl rfl id

theorem keeps_newConnection {sockaddr fd : ℕ} (hb : b < s.made)
    (hs : s.newConnection sockaddr fd = some s') : Keeps b r s s' := by
  unfold newConnection at hs
  obtain ⟨⟨loop, pool⟩, -, rfl⟩ := Option.map_eq_some_iff.mp hs
  have hne : b ≠ s.made := Nat.ne_of_lt hb
  -- The new connection takes a number that nothing has, and its entry in the `map` is not looked at.
  have hmade : Keeps b r s (({ s with pool := pool, made := s.made + 1 } : TCPServer).setConn s.made
      ⟨sockaddr, fd, loop, .kConnecting, false, [], 0, 0⟩) := by
    have hother : ((({ s with pool := pool, made := s.made + 1 } : TCPServer).setConn s.made
      ⟨sockaddr, fd, loop, .kConnecting, false, [], 0, 0⟩).conn b) = s.conn b := Function.update_of_ne hne ..
    refine ⟨by rw [hother], by rw [hother]; exact id, fun _ => ?_⟩
    unfold Registered
    rw [hother]
    exact id
  have hemplace : ∀ t : TCPServer, Keeps b r t (t.emplace sockaddr s.made) := by
    intro t
    unfold emplace
    split_ifs
    · exact .refl b r t
    · exact ⟨rfl, id, fun _ => id⟩
  have hadd : ∀ t : TCPServer, Keeps b r t (t.runInLoop s.made .add) :=
    fun _ => keeps_runInLoop fun _ h => ServerTask.noConfusion h
  have hestablished : ∀ t : TCPServer, Keeps b r t (t.runInLoop s.made .connectEstablished) :=
    fun _ => keeps_runInLoop fun _ h => ServerTask.noConfusion h
  split_ifs
  · exact keeps_fail .noDescriptor
  · exact ((hmade.trans (hemplace _)).trans (hadd _)).trans (hestablished _)

/-- Whether a step may take the connection `b` out of the table of its loop. -/
def MayTakeOut (s : TCPServer) (b : ConnId) : Op → Prop
  | .task c => b = c
  | .close c | .removal c => b = c ∧ (s.conn c).loop = 0
  | .accept _ _ | .hold _ | .drop _ => False

theorem keeps_step {op : Op} (hb : b < s.made) (hs : s.step op = some s') :
    Keeps b (¬ s.MayTakeOut b op) s s' := by
  unfold step at hs
  split_ifs at hs
  cases op with
  | accept sockaddr fd =>
    dsimp only at hs
    split_ifs at hs
    exact keeps_newConnection hb hs
  | task c =>
    dsimp only at hs
    split_ifs at hs
    split at hs
    · cases hs
    · rename_i task tasks _
      cases hs
      have hpop : Keeps b (b ≠ c) s (s.setConn c { s.conn c with tasks := tasks }) :=
        keeps_setConn rfl rfl id
      exact hpop.trans (keeps_runTask fun hother _ => hother)
  | close c =>
    dsimp only at hs
    split_ifs at hs
    cases hs
    exact keeps_removeConnection.mono fun hother hbase hbc => hother ⟨hbc, hbase⟩
  | removal c =>
    dsimp only at hs
    split_ifs at hs
    cases hs
    have hpop : Keeps b (¬ (b = c ∧ (s.conn c).loop = 0)) s
        (s.setConn c { s.conn c with removals := (s.conn c).removals - 1 }) := keeps_setConn rfl rfl id
    refine hpop.trans (keeps_removeInLoop.mono fun hother hbase hbc => hother ⟨hbc, ?_⟩)
    rw [setConn_self] at hbase
    exact hbase
  | hold c =>
    dsimp only at hs
    split_ifs at hs
    cases hs
    exact keeps_setConn rfl rfl id
  | drop c =>
    dsimp only at hs
    split_ifs at hs
    cases hs
    exact keeps_setConn rfl rfl id

/-- It does so on the time of that loop. -/
theorem MayTakeOut.mem_taskOf {op : Op} (h : s.MayTakeOut b op) : (s.conn b).loop ∈ s.taskOf op := by
  cases op with
  | task c => exact congrArg (fun c => some (s.conn c).loop) (Eq.symm h)
  | close c => exact congrArg (fun c => some (s.conn c).loop) h.1.symm
  | removal c =>
    obtain ⟨rfl, hbase⟩ := h
    rw [hbase]
    rfl
  | accept sockaddr fd => exact h.elim
  | hold c => exact h.elim
  | drop c => exact h.elim

theorem made_runTask (s : TCPServer) (c : ConnId) (task : ServerTask) : (s.runTask c task).made = s.made := by
  unfold runTask add connectEstablished connectDestroyed
  cases task <;> dsimp only <;> split_ifs <;> rfl

theorem made_runInLoop (s : TCPServer) (c : ConnId) (task : ServerTask) :
    (s.runInLoop c task).made = s.made := by
  unfold runInLoop
  split_ifs
  · exact made_runTask s c task
  · rfl

theorem made_removeInLoop (s : TCPServer) (c : ConnId) : (s.removeInLoop c).made = s.made := by
  unfold removeInLoop
  dsimp only
  split_ifs
  · exact made_runInLoop ..
  · rfl

theorem made_newConnection {sockaddr fd : ℕ} (hs : s.newConnection sockaddr fd = some s') :
    s'.made = s.made ∨ fd ≠ 0 ∧ s'.made = s.made + 1 := by
  unfold newConnection at hs
  obtain ⟨⟨loop, pool⟩, -, rfl⟩ := Option.map_eq_some_iff.mp hs
  split_ifs with hfd
  · exact .inl rfl
  · refine .inr ⟨hfd, ?_⟩
    rw [made_runInLoop, made_runInLoop]
    unfold emplace
    split_ifs <;> rfl

/-- Only `accept` makes a connection. -/
theorem made_step {op : Op} (hs : s.step op = some s') :
    s'.made = s.made ∨ s'.made = s.made + 1 ∧ ∃ sockaddr fd, op = .accept sockaddr fd ∧ fd ≠ 0 := by
  unfold step at hs
  split_ifs at hs
  cases op with
  | accept sockaddr fd =>
    dsimp only at hs
    split_ifs at hs
    exact (made_newConnection hs).imp_right fun ⟨hfd, hmade⟩ => ⟨hmade, sockaddr, fd, rfl, hfd⟩
  | task c =>
    dsimp only at hs
    split_ifs at hs
    split at hs <;> cases hs
    exact .inl (made_runTask ..)
  | close c =>
    dsimp only at hs
    split_ifs at hs
    cases hs
    unfold removeConnection
    split_ifs
    · exact .inl (made_removeInLoop s c)
    · exact .inl rfl
  | removal c =>
    dsimp only at hs
    split_ifs at hs
    cases hs
    exact .inl (made_removeInLoop ..)
  | hold c | drop c =>
    dsimp only at hs
    split_ifs at hs
    cases hs
    exact .inl rfl

/-- The removal that a worker loop queues owns the connection. -/
theorem alive_of_close (hs : s.step (.close c) = some s') (hworker : (s.conn c).loop ≠ 0) :
    s'.alive c = true := by
  unfold step at hs
  split_ifs at hs
  dsimp only at hs
  split_ifs at hs
  cases hs
  unfold removeConnection
  rw [if_neg hworker, alive_iff, setConn_self]
  right
  simp [Conn.owned]

/-- On the base loop, a connection is established before anything else happens. -/
def Settled (s : TCPServer) : Prop := ∀ c < s.made, (s.conn c).loop = 0 → (s.conn c).state ≠ .kConnecting

theorem Settled.step (h : Settled s) (hinv : Inv p s) (hp : p.Started) {op : Op} (hs : s.step op = some s') :
    Settled s' := by
  have hold : ∀ b < s.made, (s'.conn b).loop = 0 → (s'.conn b).state ≠ .kConnecting := by
    intro b hb hloop hconnecting
    have hkeeps := keeps_step hb hs
    exact h b hb (hkeeps.loop ▸ hloop) (hkeeps.connecting hconnecting)
  intro b hb hloop
  rcases made_step hs with hmade | ⟨-, sockaddr, fd, rfl, hfd⟩
  · exact hold b (hmade ▸ hb) hloop
  · unfold TCPServer.step at hs
    split_ifs at hs with hf
    dsimp only at hs
    split_ifs at hs with hfresh
    obtain ⟨loop, -, hnext⟩ := (hinv.inTurn.started hp).getNextLoop
    by_cases hbase : loop = 0
    · subst hbase
      rw [newConnection_base hinv hfresh hnext hfd] at hs
      cases hs
      rcases Nat.lt_succ_iff_lt_or_eq.mp hb with hlt | rfl
      · exact hold b hlt hloop
      · have hstate : ((s.accepted { s.pool with next_ := (s.pool.next_ + 1) % s.pool.loops_.length }
            ⟨sockaddr, fd, 0, .kConnected, true, [], 0, 0⟩).conn s.made).state = .kConnected :=
          congrArg Conn.state (conn_accepted_self s _ _)
        exact fun hconnecting => StateE.noConfusion (hstate.symm.trans hconnecting)
    · rw [newConnection_worker hinv hfresh hnext hbase hfd] at hs
      cases hs
      rcases Nat.lt_succ_iff_lt_or_eq.mp hb with hlt | rfl
      · exact hold b hlt hloop
      · rw [conn_accepted_self] at hloop
        exact absurd hloop hbase

end TCPServer

/-! ## Every run -/

namespace PolledServer

variable {p : EventLoopThreadPool ℕ} {s t : PolledServer} {c : ConnId}

/-- What the events that a loop has still to handle refer to, and what the failures are about. -/
structure Inv (p : EventLoopThreadPool ℕ) (s : PolledServer) : Prop where
  server : TCPServer.Inv p s.server
  settled : TCPServer.Settled s.server
  reports : ∀ loop, Reports s.server loop (s.events loop)
  fault : s.fault = none ∨
    (∃ c, s.fault = some (.noHandler c) ∧ c < s.server.made ∧ s.server.Registered c ∧
      (s.server.conn c).state = .kConnecting) ∨
    ∃ c, s.fault = some (.revent c) ∧ (s.server.conn c).loop = 0 ∧ s.server.alive c = false

theorem events_setEvents_self (s : PolledServer) (loop : ℕ) (channels : List ConnId) :
    (s.setEvents loop channels).events loop = channels := Function.update_self ..

theorem events_setEvents_of_ne (s : PolledServer) {loop l : ℕ} (hl : l ≠ loop) (channels : List ConnId) :
    (s.setEvents loop channels).events l = s.events l := Function.update_of_ne hl ..

theorem inv_initial (hp : p.Started) : Inv p (initial p) :=
  ⟨TCPServer.inv_initial hp, fun _ hc => absurd hc (Nat.not_lt_zero _),
    fun _ => ⟨List.nodup_nil, fun _ hc => absurd hc List.not_mem_nil⟩, .inl rfl⟩

/-- A step of the server that takes nothing out that the loops have still to handle. -/
theorem Inv.server_step (h : Inv p s) (hp : p.Started) (hf : s.fault = none) {op : TCPServer.Op}
    {server : TCPServer} (hs : s.server.step op = some server)
    (hother : ∀ loop, ∀ b ∈ s.events loop, ¬ s.server.MayTakeOut b op) :
    Inv p { s with server := server } := by
  refine ⟨h.server.step hp hs, h.settled.step h.server hp hs, fun loop => ⟨(h.reports loop).1, ?_⟩, .inl hf⟩
  intro b hb
  obtain ⟨hmade, hloop, hr⟩ := (h.reports loop).2 b hb
  have hkeeps := TCPServer.keeps_step hmade hs
  refine ⟨?_, hkeeps.loop.trans hloop, hkeeps.registered (hother loop b hb) hr⟩
  rcases TCPServer.made_step hs with hmade' | ⟨hmade', -⟩
  · exact hmade' ▸ hmade
  · exact hmade' ▸ Nat.lt_succ_of_lt hmade

/-- The events of a loop are replaced by others that it may have. -/
theorem Inv.setEvents (h : Inv p s) {loop : ℕ} {channels : List ConnId}
    (hreports : Reports s.server loop channels) : Inv p (s.setEvents loop channels) := by
  refine ⟨h.server, h.settled, fun l => ?_, h.fault⟩
  by_cases hl : l = loop
  · rw [hl, events_setEvents_self]
    exact hreports
  · rw [events_setEvents_of_ne s hl]
    exact h.reports l

/-- `handleEvent` goes on with a channel that exists, but on the base loop. -/
theorem Inv.testRevent (h : Inv p s) (hbase : s.server.alive c = false → (s.server.conn c).loop = 0) :
    Inv p (s.testRevent c) := by
  unfold PolledServer.testRevent
  split_ifs with hdead
  · exact ⟨h.server, h.settled, h.reports, .inr (.inr ⟨c, rfl, hbase hdead.2, hdead.2⟩)⟩
  · exact h

/-- The channel of an event exists, and its own close is the only one while it is handled. -/
theorem Inv.handle (h : Inv p s) (hp : p.Started) (hf : s.fault = none) {loop : ℕ} {rest : List ConnId}
    (hevents : s.events loop = c :: rest) {hangup : Bool}
    (hs : (s.setEvents loop rest).handle c hangup = some t) : Inv p t := by
  have hreports := h.reports loop
  rw [hevents] at hreports
  obtain ⟨hnodup, hall⟩ := hreports
  obtain ⟨hc, hloop, hr⟩ := hall c List.mem_cons_self
  have halive : s.server.alive c = true := h.server.alive_of_registered hc hr
  have hpopped : Inv p (s.setEvents loop rest) :=
    h.setEvents ⟨hnodup.of_cons, fun b hb => hall b (List.mem_cons_of_mem c hb)⟩
  -- It is not in the batch any more, and in no other.
  have hgone : ∀ l, c ∉ (s.setEvents loop rest).events l := by
    intro l hmem
    by_cases hl : l = loop
    · rw [hl, events_setEvents_self] at hmem
      exact (List.nodup_cons.mp hnodup).1 hmem
    · rw [events_setEvents_of_ne s hl] at hmem
      exact hl (((h.reports l).2 c hmem).2.1.symm.trans hloop)
  unfold PolledServer.handle at hs
  rw [if_neg (fun hdead => Bool.noConfusion (hdead.symm.trans halive))] at hs
  split_ifs at hs with hconnecting hhangup
  · cases hs
    exact ⟨h.server, h.settled, hpopped.reports, .inr (.inl ⟨c, rfl, hc, hr, hconnecting⟩)⟩
  · obtain ⟨server, hclose, rfl⟩ := Option.map_eq_some_iff.mp hs
    have hclosed := hpopped.server_step hp hf hclose fun l b hb htaken => hgone l (htaken.1 ▸ hb)
    -- On a worker loop the removal that has been queued still owns the connection.
    refine hclosed.testRevent fun hdead => ?_
    by_contra hworker
    have hbefore : (s.server.conn c).loop ≠ 0 := (TCPServer.keeps_step hc hclose).loop ▸ hworker
    exact Bool.noConfusion (hdead.symm.trans (TCPServer.alive_of_close hclose hbefore))
  · cases hs
    exact hpopped.testRevent fun hdead => Bool.noConfusion (hdead.symm.trans halive)

theorem Inv.step (h : Inv p s) (hp : p.Started) {op : Op} (hs : s.step op = some t) : Inv p t := by
  unfold PolledServer.step at hs
  split_ifs at hs with hf
  cases op with
  | wait loop ready =>
    dsimp only at hs
    split_ifs at hs with hwait
    cases hs
    exact h.setEvents hwait.2
  | event loop hangup =>
    dsimp only at hs
    split at hs
    · cases hs
    · rename_i c rest hevents
      exact h.handle hp hf.1 hevents hs
  | server op =>
    dsimp only at hs
    split_ifs at hs with hidle
    obtain ⟨server, hserver, rfl⟩ := Option.map_eq_some_iff.mp hs
    refine h.server_step hp hf.1 hserver fun loop b hb htaken => ?_
    -- A task of a loop does not run while the loop has events to handle.
    have hloop : (s.server.conn b).loop = loop := ((h.reports loop).2 b hb).2.1
    have hnone := hidle _ htaken.mem_taskOf
    rw [hloop] at hnone
    rw [hnone] at hb
    exact absurd hb List.not_mem_nil

/-- The tables are right, and every channel that a loop has still to handle exists and is in its table. The
failures are an event on a worker loop between the `add` of a connection and its `connectEstablished`, and the
close of a connection on the base loop that nothing else owns, in its own event. -/
structure Sound (p : EventLoopThreadPool ℕ) (s : PolledServer) : Prop where
  server : TCPServer.Sound p s.server
  events : ∀ loop, ∀ c ∈ s.events loop,
    s.server.alive c = true ∧ s.server.channels loop (s.server.conn c).fd = some c
  fault : s.fault = none ∨
    (∃ c, s.fault = some (.noHandler c) ∧ (s.server.conn c).loop ≠ 0 ∧
      (s.server.conn c).tasks = [.connectEstablished]) ∨
    ∃ c, s.fault = some (.revent c) ∧ (s.server.conn c).loop = 0 ∧ s.server.alive c = false

theorem Inv.sound (h : Inv p s) (hp : p.Started) (hnodup : p.loops_.Nodup) : Sound p s := by
  refine ⟨h.server.sound hp hnodup, fun loop c hc => ?_, h.fault.imp_right (Or.imp_left ?_)⟩
  · obtain ⟨hmade, hloop, hr⟩ := (h.reports loop).2 c hc
    exact ⟨h.server.alive_of_registered hmade hr, hloop ▸ hr⟩
  · rintro ⟨c, hfault, hc, hr, hconnecting⟩
    have hphase := h.server.phase c hc
    rw [hconnecting] at hphase
    obtain ⟨htasks, -⟩ := hphase
    rw [if_pos hr] at htasks
    exact ⟨c, hfault, fun hbase => h.settled c hc hbase hconnecting, htasks⟩

/-- The assertion on the descriptor of a new connection fails only when one is accepted. -/
theorem accept_of_noDescriptor {op : Op} (hs : s.step op = some t)
    (h : t.server.fault = some .noDescriptor) : ∃ sockaddr, op = .server (.accept sockaddr 0) := by
  unfold PolledServer.step at hs
  split_ifs at hs with hf
  have hbefore : s.server.fault ≠ some .noDescriptor := by simp [hf.2]
  cases op with
  | wait loop ready =>
    dsimp only at hs
    split_ifs at hs
    cases hs
    exact absurd h hbefore
  | event loop hangup =>
    dsimp only at hs
    split at hs
    · cases hs
    · rename_i c rest hevents
      have hrevent : ∀ u : PolledServer, (u.testRevent c).server = u.server := fun u => by
        unfold PolledServer.testRevent
        split_ifs <;> rfl
      unfold PolledServer.handle at hs
      split_ifs at hs
      · cases hs
        exact absurd h hbefore
      · cases hs
        exact absurd h hbefore
      · obtain ⟨server, hclose, rfl⟩ := Option.map_eq_some_iff.mp hs
        rw [hrevent] at h
        obtain ⟨sockaddr, hop⟩ := TCPServer.accept_of_noDescriptor hclose h
        cases hop
      · cases hs
        rw [hrevent] at h
        exact absurd h hbefore
  | server op =>
    dsimp only at hs
    split_ifs at hs
    obtain ⟨server, hserver, rfl⟩ := Option.map_eq_some_iff.mp hs
    obtain ⟨sockaddr, rfl⟩ := TCPServer.accept_of_noDescriptor hserver h
    exact ⟨sockaddr, rfl⟩

/-- Over every run of a server with any number of threads. -/
theorem handled_of_run (p : EventLoopThreadPool ℕ) (numThreads : ℕ)
    (hstart : EventLoopThreadPool.start 0 numThreads Nat.succ = some p) (ops : List Op) :
    Machine.Always step (Sound p) (initial p) ops ∧
      ∀ s, Machine.run step (initial p) ops = some s → s.server.fault = some .noDescriptor →
        ∃ sockaddr, .server (.accept sockaddr 0) ∈ ops := by
  obtain ⟨hp, hnodup⟩ := TCPServer.started_nodup hstart
  constructor
  · exact Machine.always_of_meets (fun _ h => h.sound hp hnodup) (fun _ _ _ h _ hs => h.step hp hs)
      (inv_initial hp) (Machine.meets_of_labels (D := fun _ => True) fun _ _ => trivial)
  · intro s hrun
    refine Machine.run_history (I := fun ops s => s.server.fault = some .noDescriptor →
      ∃ sockaddr, .server (.accept sockaddr 0) ∈ ops) (fun ops s op t _ hs hfault => ?_) ?_ hrun
    · obtain ⟨sockaddr, rfl⟩ := accept_of_noDescriptor hs hfault
      exact ⟨sockaddr, List.mem_concat_self⟩
    · intro hfault
      cases hfault

/-- Two threads. The loops poll between what the connections do. A connection of the base loop that the user
holds and two of the worker loop are closed by their events. -/
def polledTwoThreads : List Op :=
  [.server (.accept 100 7), .server (.task 0), .server (.task 0), .server (.accept 200 8),
    .server (.accept 300 9), .server (.task 2), .server (.task 2), .server (.accept 400 10),
    .server (.hold 1), .wait 0 [1, 3], .wait 1 [2, 0], .event 0 true, .event 1 true, .event 0 false,
    .event 1 true]

theorem handled_two_threads :
    (Machine.run step (initial ⟨[0, 1], 0⟩) polledTwoThreads).isSome = true ∧
      Machine.Always step (Sound ⟨[0, 1], 0⟩) (initial ⟨[0, 1], 0⟩) polledTwoThreads ∧
      ∀ s, Machine.run step (initial ⟨[0, 1], 0⟩) polledTwoThreads = some s →
        s.server.fault = some .noDescriptor → ∃ sockaddr, .server (.accept sockaddr 0) ∈ polledTwoThreads :=
  ⟨by decide +kernel, handled_of_run ⟨[0, 1], 0⟩ 2 rfl _⟩

/-- The run of a worker loop that polls between the two tasks. -/
example : (Machine.run step (initial ⟨[0, 1], 0⟩)
    [.server (.accept 100 7), .server (.task 0), .wait 1 [0], .event 1 true]).bind (·.fault) =
      some (.noHandler 0) := by decide

/-- A hang-up on the base loop destroys the connection that it is about. -/
example : (Machine.run step (initial ⟨[0], 0⟩) [.server (.accept 100 7), .wait 0 [0], .event 0 true]).bind
    (·.fault) = some (.revent 0) := by decide

end PolledServer

end Hulatang
