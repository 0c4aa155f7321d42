import Mathlib.Tactic.Tauto
import Hulatang.Io.TCPServer

/-!
# What the tables of a server say

The `map` and the tables of channels are right over every run (`Sound`), although addresses and descriptors
are used again: what refers to a connection by one of them owns it, or comes before an owner in the same
queue. The invariant goes by the state of each connection (`Phase`), and a step touches one connection
(`Touches`).
-/

namespace Hulatang.TCPServer

/-- What holds of a connection in each of its states; nothing sets `kDisconnecting`. -/
def Phase (s : TCPServer) (c : ConnId) : StateE → Prop
  | .kConnecting =>
    (s.conn c).tasks = (if s.Registered c then [.connectEstablished] else [.add, .connectEstablished]) ∧
      (s.conn c).tied = false ∧ (s.conn c).removals = 0 ∧ c ∉ s.removed
  | .kConnected =>
    (s.conn c).tasks = (if c ∈ s.removed then [.connectDestroyed] else []) ∧ (s.conn c).tied = true ∧
      s.Registered c
  | .kDisconnecting => False
  | .kDisconnected =>
    (s.conn c).tasks = [] ∧ (s.conn c).tied = false ∧ ¬ s.Registered c ∧ c ∈ s.removed

/-- The invariant of a server that has been started with the pool `p`. -/
structure Inv (p : EventLoopThreadPool ℕ) (s : TCPServer) : Prop where
  phase : ∀ c < s.made, Phase s c (s.conn c).state
  distinct : ∀ a < s.made, ∀ b < s.made, s.alive a = true → s.alive b = true → a ≠ b →
    (s.conn a).sockaddr ≠ (s.conn b).sockaddr ∧ (s.conn a).fd ≠ (s.conn b).fd
  map : ∀ k c, (k, c) ∈ s.map ↔ c < s.made ∧ c ∉ s.removed ∧ k = (s.conn c).sockaddr
  keys : (s.map.map Prod.fst).Nodup
  channels : ∀ loop fd c, s.channels loop fd = some c →
    c < s.made ∧ loop = (s.conn c).loop ∧ fd = (s.conn c).fd
  removed : ∀ c ∈ s.removed, c < s.made
  inTurn : EventLoopThreadPool.InTurn p ⟨s.pool, (List.range s.made).map fun c => (s.conn c).loop⟩
  fault : s.fault = none ∨ (∃ c, s.fault = some .notRemoved ∧ 2 ≤ s.removed.count c) ∨
    s.fault = some .noDescriptor

theorem inv_initial {p : EventLoopThreadPool ℕ} (hp : p.Started) : Inv p (initial p) := by
  refine ⟨fun _ hc => absurd hc (Nat.not_lt_zero _), fun _ ha => absurd ha (Nat.not_lt_zero _), ?_,
    List.nodup_nil, (fun _ _ _ h => nomatch h), fun _ hc => absurd hc List.not_mem_nil,
    EventLoopThreadPool.inTurn_nil hp, .inl rfl⟩
  intro k c
  exact ⟨fun h => absurd h List.not_mem_nil, fun h => absurd h.1 (Nat.not_lt_zero _)⟩

variable {p : EventLoopThreadPool ℕ} {s s' : TCPServer} {a b c : ConnId}

theorem alive_iff : s.alive c = true ↔ (∃ k, (k, c) ∈ s.map) ∨ (s.conn c).owned = true := by
  unfold alive
  rw [Bool.or_eq_true, List.any_eq_true]
  constructor
  · rintro (⟨⟨k, d⟩, hmem, heq⟩ | howned)
    · have hd : d = c := beq_iff_eq.mp heq
      exact .inl ⟨k, hd ▸ hmem⟩
    · exact .inr howned
  · rintro (⟨k, hmem⟩ | howned)
    · exact .inl ⟨(k, c), hmem, beq_self_eq_true c⟩
    · exact .inr howned

theorem Inv.alive_of_mem (h : Inv p s) {k : ℕ} (hk : (k, c) ∈ s.map) : c < s.made ∧ s.alive c = true :=
  ⟨((h.map k c).mp hk).1, alive_iff.mpr (.inl ⟨k, hk⟩)⟩

/-- A registered connection is tied, or its `connectEstablished` is queued. -/
theorem Inv.alive_of_registered (h : Inv p s) (hc : c < s.made) (hr : s.Registered c) :
    s.alive c = true := by
  have hphase := h.phase c hc
  refine alive_iff.mpr (.inr ?_)
  unfold Conn.owned
  cases hs : (s.conn c).state <;> rw [hs] at hphase
  · obtain ⟨htasks, -⟩ := hphase
    rw [if_pos hr] at htasks
    rw [htasks]
    simp [ServerTask.owns]
  · rw [hphase.2.1]
    rfl
  · exact hphase.elim
  · exact absurd hr hphase.2.2.1

/-- The place of its channel is free, or has its channel. -/
theorem Inv.channel_eq (h : Inv p s) (hc : c < s.made) (halive : s.alive c = true) :
    s.channels (s.conn c).loop (s.conn c).fd = none ∨ s.Registered c := by
  cases hslot : s.channels (s.conn c).loop (s.conn c).fd with
  | none => exact .inl rfl
  | some d =>
    right
    obtain ⟨hd, hloop, hfd⟩ := h.channels _ _ d hslot
    -- Whoever has the place has the descriptor, and keeps it open.
    have hregistered : s.Registered d := by
      unfold Registered
      rw [← hloop, ← hfd]
      exact hslot
    by_cases hdc : d = c
    · exact hdc ▸ hregistered
    · exact absurd hfd.symm (h.distinct d hd c hc (h.alive_of_registered hd hregistered) halive hdc).2

/-! ## Steps that touch one connection -/

/-- A step that touches nothing but the connection `c`, and gives life to nothing. -/
structure Touches (c : ConnId) (s s' : TCPServer) : Prop where
  pool : s'.pool = s.pool
  made : s'.made = s.made
  conn : ∀ b, b ≠ c → s'.conn b = s.conn b
  place : (s'.conn c).sockaddr = (s.conn c).sockaddr ∧ (s'.conn c).fd = (s.conn c).fd ∧
    (s'.conn c).loop = (s.conn c).loop
  registered : ∀ b, b ≠ c → (s'.Registered b ↔ s.Registered b)
  removed : ∀ b, b ≠ c → (b ∈ s'.removed ↔ b ∈ s.removed)
  channels : ∀ loop fd b, s'.channels loop fd = some b →
    s.channels loop fd = some b ∨ b = c ∧ loop = (s.conn c).loop ∧ fd = (s.conn c).fd
  alive : ∀ b, s'.alive b = true → s.alive b = true

theorem Touches.trans {s₁ s₂ s₃ : TCPServer} (h : Touches c s₁ s₂) (h' : Touches c s₂ s₃) :
    Touches c s₁ s₃ := by
  refine ⟨h'.pool.trans h.pool, h'.made.trans h.made, fun b hb => (h'.conn b hb).trans (h.conn b hb),
    ⟨h'.place.1.trans h.place.1, h'.place.2.1.trans h.place.2.1, h'.place.2.2.trans h.place.2.2⟩,
    fun b hb => (h'.registered b hb).trans (h.registered b hb),
    fun b hb => (h'.removed b hb).trans (h.removed b hb), fun loop fd b hch => ?_,
    fun b hb => h.alive b (h'.alive b hb)⟩
  rcases h'.channels loop fd b hch with hch | ⟨hb, hloop, hfd⟩
  · exact h.channels loop fd b hch
  · exact .inr ⟨hb, hloop.trans h.place.2.2, hfd.trans h.place.2.1⟩

theorem Touches.fail (h : Touches c s s') (fault : ServerFault) : Touches c s (s'.fail fault) :=
  ⟨h.pool, h.made, h.conn, h.place, h.registered, h.removed, h.channels, h.alive⟩

theorem Touches.place_eq (h : Touches c s s') (b : ConnId) :
    (s'.conn b).sockaddr = (s.conn b).sockaddr ∧ (s'.conn b).fd = (s.conn b).fd ∧
      (s'.conn b).loop = (s.conn b).loop := by
  by_cases hb : b = c
  · exact hb ▸ h.place
  · rw [h.conn b hb]
    exact ⟨rfl, rfl, rfl⟩

/-- What holds of the other connections does not change. -/
theorem Touches.phase (h : Touches c s s') (hb : b ≠ c) {state : StateE} (hphase : Phase s b state) :
    Phase s' b state := by
  have hconn := h.conn b hb
  have hregistered := h.registered b hb
  have hremoved := h.removed b hb
  cases state <;> simp only [Phase, hconn, hregistered, hremoved] at hphase ⊢ <;> exact hphase

/-- So the invariant is left to be shown of the connection, of the `map` and of the fault. -/
theorem Inv.of_touches (h : Inv p s) (ht : Touches c s s')
    (hphase : Phase s' c (s'.conn c).state) (hremoved : c ∈ s'.removed → c < s.made)
    (hmap : ∀ k b, (k, b) ∈ s'.map ↔ b < s.made ∧ b ∉ s'.removed ∧ k = (s.conn b).sockaddr)
    (hkeys : (s'.map.map Prod.fst).Nodup) (hc : c < s.made)
    (hfault : s'.fault = none ∨ (∃ c, s'.fault = some .notRemoved ∧ 2 ≤ s'.removed.count c) ∨
      s'.fault = some .noDescriptor) : Inv p s' := by
  refine ⟨fun b hb => ?_, fun a ha b hb haa hba hne => ?_, fun k b => ?_, hkeys, fun loop fd b hch => ?_,
    fun b hb => ?_, ?_, hfault⟩
  · rw [ht.made] at hb
    by_cases hbc : b = c
    · exact hbc ▸ hphase
    · rw [ht.conn b hbc]
      exact ht.phase hbc (h.phase b hb)
  · rw [ht.made] at ha hb
    rw [(ht.place_eq a).1, (ht.place_eq b).1, (ht.place_eq a).2.1, (ht.place_eq b).2.1]
    exact h.distinct a ha b hb (ht.alive a haa) (ht.alive b hba) hne
  · rw [ht.made, (ht.place_eq b).1]
    exact hmap k b
  · rw [ht.made, (ht.place_eq b).2.2, (ht.place_eq b).2.1]
    rcases ht.channels loop fd b hch with hch | ⟨rfl, hloop, hfd⟩
    · exact h.channels loop fd b hch
    · exact ⟨hc, hloop, hfd⟩
  · rw [ht.made]
    by_cases hbc : b = c
    · exact hbc ▸ hremoved (hbc ▸ hb)
    · exact h.removed b ((ht.removed b hbc).mp hb)
  · have hloops : (List.range s'.made).map (fun c => (s'.conn c).loop) =
        (List.range s.made).map fun c => (s.conn c).loop := by
      rw [ht.made]
      exact List.map_congr_left fun b _ => (ht.place_eq b).2.2
    rw [hloops, ht.pool]
    exact h.inTurn

/-- The owners, the state and the tasks of a connection are touched, and it is not given life. -/
theorem touches_setConn {conn : Conn} (haddr : conn.sockaddr = (s.conn c).sockaddr)
    (hfd : conn.fd = (s.conn c).fd) (hloop : conn.loop = (s.conn c).loop)
    (halive : conn.owned = true → s.alive c = true) : Touches c s (s.setConn c conn) := by
  have hself : (s.setConn c conn).conn c = conn := Function.update_self ..
  have hother : ∀ b, b ≠ c → (s.setConn c conn).conn b = s.conn b := fun b hb => Function.update_of_ne hb ..
  refine ⟨rfl, rfl, hother, ?_, fun b hb => ?_, fun _ _ => Iff.rfl, fun _ _ _ hch => .inl hch, fun b hb => ?_⟩
  · rw [hself]
    exact ⟨haddr, hfd, hloop⟩
  · unfold Registered
    rw [hother b hb]
    exact Iff.rfl
  · rcases alive_iff.mp hb with hmem | howned
    · exact alive_iff.mpr (.inl hmem)
    · by_cases hbc : b = c
      · subst hbc
        rw [hself] at howned
        exact halive howned
      · rw [hother b hbc] at howned
        exact alive_iff.mpr (.inr howned)

/-- The place of its channel is written, where no other connection is registered. -/
theorem touches_setChannel {channel : Option ConnId} (hchannel : channel = none ∨ channel = some c)
    (hfree : s.channels (s.conn c).loop (s.conn c).fd = none ∨ s.Registered c) :
    Touches c s (s.setChannel c channel) := by
  refine ⟨rfl, rfl, fun _ _ => rfl, ⟨rfl, rfl, rfl⟩, fun b hb => ?_, fun _ _ => Iff.rfl,
    fun loop fd b hch => ?_, fun _ hb => hb⟩
  · unfold Registered setChannel
    dsimp only
    split_ifs with hplace
    · -- Neither before nor after is it the other connection that has the place.
      rw [hplace.1, hplace.2]
      constructor
      · rintro rfl
        rcases hchannel with h | h
        · cases h
        · exact absurd (Option.some.inj h) hb
      · intro hslot
        rcases hfree with h | h
        · rw [h] at hslot
          cases hslot
        · unfold Registered at h
          rw [h] at hslot
          exact absurd (Option.some.inj hslot).symm hb
    · exact Iff.rfl
  · unfold setChannel at hch
    dsimp only at hch
    split_ifs at hch with hplace
    · rcases hchannel with h | h
      · rw [h] at hch
        cases hch
      · rw [h] at hch
        exact .inr ⟨(Option.some.inj hch).symm, hplace⟩
    · exact .inl hch

/-! ## Every step -/

@[simp] theorem setConn_self (s : TCPServer) (c : ConnId) (conn : Conn) : (s.setConn c conn).conn c = conn :=
  Function.update_self ..

/-- `setConn` leaves the tables alone. -/
theorem registered_setConn {conn : Conn} (hfd : conn.fd = (s.conn c).fd)
    (hloop : conn.loop = (s.conn c).loop) :
    (s.setConn c conn).Registered c ↔ s.Registered c := by
  unfold Registered
  rw [setConn_self, hfd, hloop]
  exact Iff.rfl

theorem registered_setChannel {channel : Option ConnId} :
    (s.setChannel c channel).Registered c ↔ channel = some c := by
  unfold Registered setChannel
  dsimp only
  rw [if_pos ⟨rfl, rfl⟩]

/-- A step of a connection that removes nothing, and keeps its phase. -/
theorem Inv.of_touches_map (h : Inv p s) (ht : Touches c s s') (hc : c < s.made)
    (hphase : Phase s' c (s'.conn c).state) (hmap : s'.map = s.map) (hremoved : s'.removed = s.removed)
    (hfault : s'.fault = s.fault) : Inv p s' := by
  refine h.of_touches ht hphase (fun _ => hc) (fun k b => ?_) ?_ hc ?_
  · rw [hmap, hremoved]
    exact h.map k b
  · rw [hmap]
    exact h.keys
  · rw [hfault, hremoved]
    exact h.fault

/-- `connectDestroyed` of a connected one leaves it with neither its channel nor its tie. -/
theorem connectDestroyed_eq (hr : s.Registered c) (hs : (s.conn c).state = .kConnected) :
    s.connectDestroyed c =
      (s.setChannel c none).setConn c { s.conn c with state := .kDisconnected, tied := false } := by
  unfold connectDestroyed
  rw [if_neg (not_not_intro hr)]
  dsimp only
  rw [if_pos hs]

theorem touches_connectDestroyed (hr : s.Registered c) (hs : (s.conn c).state = .kConnected) :
    Touches c s (s.connectDestroyed c) := by
  rw [connectDestroyed_eq hr hs]
  refine (touches_setChannel (.inl rfl) (.inr hr)).trans (touches_setConn rfl rfl rfl fun howned => ?_)
  -- It has no owner that it has not had before.
  have hbefore : (s.conn c).owned = true := by
    unfold Conn.owned at howned ⊢
    simp only [Bool.or_eq_true] at howned ⊢
    tauto
  exact alive_iff.mpr (.inr hbefore)

theorem phase_connectDestroyed (hr : s.Registered c) (hs : (s.conn c).state = .kConnected)
    (htasks : (s.conn c).tasks = []) (hremoved : c ∈ s.removed) :
    Phase (s.connectDestroyed c) c ((s.connectDestroyed c).conn c).state := by
  rw [connectDestroyed_eq hr hs, setConn_self]
  refine ⟨?_, ?_, ?_, hremoved⟩
  · rw [setConn_self]
    exact htasks
  · rw [setConn_self]
  · rw [registered_setConn (by rfl) (by rfl), registered_setChannel]
    exact fun h => nomatch h

/-- The task is taken off its queue, and its closure owns the connection until it is done. -/
theorem touches_pop (halive : s.alive c = true) (tasks : List ServerTask) :
    Touches c s (s.setConn c { s.conn c with tasks := tasks }) :=
  touches_setConn rfl rfl rfl fun _ => halive

theorem Inv.task_add (h : Inv p s) (hc : c < s.made) (hs : (s.conn c).state = .kConnecting)
    (hr : ¬ s.Registered c) :
    Inv p ((s.setConn c { s.conn c with tasks := [.connectEstablished] }).add c) := by
  have hphase := h.phase c hc
  rw [hs] at hphase
  obtain ⟨htasks, htied, hremovals, hnot⟩ := hphase
  rw [if_neg hr] at htasks
  -- The queued tasks own the connection before and after this one.
  have halive : s.alive c = true := alive_iff.mpr (.inr (by simp [Conn.owned, htasks, ServerTask.owns]))
  have hpop := touches_pop halive [.connectEstablished]
  have halive' : (s.setConn c { s.conn c with tasks := [.connectEstablished] }).alive c = true := by
    refine alive_iff.mpr (.inr ?_)
    rw [setConn_self]
    simp [Conn.owned, ServerTask.owns]
  -- No other connection that is alive has its descriptor.
  have hfree : (s.setConn c { s.conn c with tasks := [.connectEstablished] }).channels (s.conn c).loop
      (s.conn c).fd = none := (h.channel_eq hc halive).resolve_right hr
  have hadd : (s.setConn c { s.conn c with tasks := [.connectEstablished] }).add c =
      (s.setConn c { s.conn c with tasks := [.connectEstablished] }).setChannel c (some c) := by
    unfold add
    rw [if_neg (by rw [halive']; exact Bool.noConfusion), setConn_self, if_neg (not_not_intro hfree)]
  rw [hadd]
  have hset : Touches c (s.setConn c { s.conn c with tasks := [.connectEstablished] })
      ((s.setConn c { s.conn c with tasks := [.connectEstablished] }).setChannel c (some c)) :=
    touches_setChannel (.inr rfl) (.inl (by rw [setConn_self]; exact hfree))
  refine h.of_touches_map (hpop.trans hset) hc ?_ rfl rfl rfl
  show Phase _ c ((s.setConn c _).conn c).state
  rw [setConn_self, hs]
  refine ⟨?_, ?_, ?_, hnot⟩
  · rw [if_pos (registered_setChannel.mpr rfl)]
    show ((s.setConn c _).conn c).tasks = _
    rw [setConn_self]
  · show ((s.setConn c _).conn c).tied = _
    rw [setConn_self]
    exact htied
  · show ((s.setConn c _).conn c).removals = _
    rw [setConn_self]
    exact hremovals

theorem Inv.task_connectEstablished (h : Inv p s) (hc : c < s.made) (hs : (s.conn c).state = .kConnecting)
    (hr : s.Registered c) :
    Inv p ((s.setConn c { s.conn c with tasks := [] }).connectEstablished c) := by
  have hphase := h.phase c hc
  rw [hs] at hphase
  obtain ⟨-, -, -, hnot⟩ := hphase
  have halive := h.alive_of_registered hc hr
  have hr' : (s.setConn c { s.conn c with tasks := [] }).Registered c :=
    (registered_setConn (by rfl) (by rfl)).mpr hr
  have hestablished : (s.setConn c { s.conn c with tasks := [] }).connectEstablished c =
      s.setConn c { s.conn c with tasks := [], state := .kConnected, tied := true } := by
    unfold connectEstablished
    rw [setConn_self, if_neg (not_not_intro hs), if_neg (not_not_intro hr')]
    unfold setConn
    dsimp only
    rw [Function.update_idem]
  rw [hestablished]
  refine h.of_touches_map (touches_setConn rfl rfl rfl fun _ => halive) hc ?_ rfl rfl rfl
  rw [setConn_self]
  refine ⟨?_, ?_, (registered_setConn (by rfl) (by rfl)).mpr hr⟩
  · rw [setConn_self]
    exact (if_neg hnot).symm
  · rw [setConn_self]

theorem Inv.task_connectDestroyed (h : Inv p s) (hc : c < s.made) (hs : (s.conn c).state = .kConnected)
    (hremoved : c ∈ s.removed) :
    Inv p ((s.setConn c { s.conn c with tasks := [] }).connectDestroyed c) := by
  have hphase := h.phase c hc
  rw [hs] at hphase
  obtain ⟨-, -, hr⟩ := hphase
  have halive := h.alive_of_registered hc hr
  have hr' : (s.setConn c { s.conn c with tasks := [] }).Registered c :=
    (registered_setConn (by rfl) (by rfl)).mpr hr
  have hs' : ((s.setConn c { s.conn c with tasks := [] }).conn c).state = .kConnected := by
    rw [setConn_self]
    exact hs
  have htouches := (touches_pop halive []).trans (touches_connectDestroyed hr' hs')
  have hdestroyed := connectDestroyed_eq hr' hs'
  have hphase' := phase_connectDestroyed hr' hs' (by rw [setConn_self]) hremoved
  refine h.of_touches_map htouches hc hphase' ?_ ?_ ?_
  · rw [hdestroyed]
    rfl
  · rw [hdestroyed]
    rfl
  · rw [hdestroyed]
    rfl

/-- Its loop runs a task: each finds the connection, its channel and its state as it takes them to be. -/
theorem Inv.task (h : Inv p s) (hc : c < s.made) {task : ServerTask} {tasks : List ServerTask}
    (htasks : (s.conn c).tasks = task :: tasks) :
    Inv p ((s.setConn c { s.conn c with tasks := tasks }).runTask c task) := by
  have hphase := h.phase c hc
  cases hs : (s.conn c).state <;> rw [hs] at hphase
  · obtain ⟨hqueue, -⟩ := hphase
    rw [htasks] at hqueue
    by_cases hr : s.Registered c
    · rw [if_pos hr] at hqueue
      obtain ⟨rfl, rfl⟩ := List.cons.inj hqueue
      exact h.task_connectEstablished hc hs hr
    · rw [if_neg hr] at hqueue
      obtain ⟨rfl, rfl⟩ := List.cons.inj hqueue
      exact h.task_add hc hs hr
  · obtain ⟨hqueue, -⟩ := hphase
    rw [htasks] at hqueue
    split_ifs at hqueue with hremoved
    obtain ⟨rfl, rfl⟩ := List.cons.inj hqueue
    exact h.task_connectDestroyed hc hs hremoved
  · exact hphase.elim
  · exact absurd (htasks.symm.trans hphase.1) (List.cons_ne_nil _ _)

/-- The `map` without the entries of a key. -/
def without (s : TCPServer) (c : ConnId) : TCPServer :=
  { s with map := s.map.filter fun entry => entry.1 ≠ (s.conn c).sockaddr, removed := c :: s.removed }

theorem mem_without {k : ℕ} : (k, b) ∈ (s.without c).map ↔ (k, b) ∈ s.map ∧ k ≠ (s.conn c).sockaddr := by
  show (k, b) ∈ s.map.filter _ ↔ _
  rw [List.mem_filter, decide_eq_true_eq]

theorem touches_without : Touches c s (s.without c) := by
  refine ⟨rfl, rfl, fun _ _ => rfl, ⟨rfl, rfl, rfl⟩, fun _ _ => Iff.rfl, fun b hb => ?_,
    fun _ _ _ hch => .inl hch, fun b hb => ?_⟩
  · show b ∈ c :: s.removed ↔ _
    rw [List.mem_cons, or_iff_right hb]
  · rcases alive_iff.mp hb with ⟨k, hmem⟩ | howned
    · exact alive_iff.mpr (.inl ⟨k, (mem_without.mp hmem).1⟩)
    · exact alive_iff.mpr (.inr howned)

/-- Whoever else is alive has another address than the connection. -/
def Unshared (s : TCPServer) (c : ConnId) : Prop :=
  ∀ b < s.made, s.alive b = true → b ≠ c → (s.conn b).sockaddr ≠ (s.conn c).sockaddr

/-- So the key finds the connection, or nothing. -/
theorem Inv.found_iff (h : Inv p s) (hc : c < s.made) (hown : Unshared s c) :
    (s.map.any fun entry => entry.1 == (s.conn c).sockaddr) = true ↔ c ∉ s.removed := by
  rw [List.any_eq_true]
  constructor
  · rintro ⟨⟨k, b⟩, hmem, hkey⟩
    have hk : k = (s.conn c).sockaddr := beq_iff_eq.mp hkey
    obtain ⟨hb, halive⟩ := h.alive_of_mem hmem
    obtain ⟨-, hnot, hkb⟩ := (h.map k b).mp hmem
    by_cases hbc : b = c
    · exact hbc ▸ hnot
    · exact absurd (hkb.symm.trans hk) (hown b hb halive hbc)
  · intro hnot
    exact ⟨((s.conn c).sockaddr, c), (h.map _ c).mpr ⟨hc, hnot, rfl⟩, beq_self_eq_true _⟩

/-- And takes no other connection out of the `map`. -/
theorem Inv.map_without (h : Inv p s) (hown : Unshared s c) (k : ℕ) (b : ConnId) :
    (k, b) ∈ (s.without c).map ↔ b < s.made ∧ b ∉ (s.without c).removed ∧ k = (s.conn b).sockaddr := by
  rw [mem_without]
  show _ ↔ b < s.made ∧ b ∉ c :: s.removed ∧ _
  rw [List.mem_cons, not_or]
  constructor
  · rintro ⟨hmem, hk⟩
    obtain ⟨hb, hnot, hkb⟩ := (h.map k b).mp hmem
    exact ⟨hb, ⟨fun hbc => hk (hbc ▸ hkb), hnot⟩, hkb⟩
  · rintro ⟨hb, ⟨hbc, hnot⟩, hkb⟩
    have hmem := (h.map k b).mpr ⟨hb, hnot, hkb⟩
    exact ⟨hmem, hkb ▸ hown b hb (h.alive_of_mem hmem).2 hbc⟩

theorem Inv.keys_without (h : Inv p s) : ((s.without c).map.map Prod.fst).Nodup :=
  h.keys.sublist (List.filter_sublist.map Prod.fst)

/-- The base loop removes a connection that is established. The first time it has it destroyed; after that the
assertion fails, and the `map` is as it was. -/
theorem Inv.removeInLoop (h : Inv p s) (hc : c < s.made) (hown : Unshared s c)
    (hs : (s.conn c).state ≠ .kConnecting) (hf : s.fault = none) : Inv p (s.removeInLoop c) := by
  have hphase := h.phase c hc
  have hfound := h.found_iff hc hown
  by_cases hremoved : c ∈ s.removed
  · have hdone : s.removeInLoop c = (s.without c).fail .notRemoved := by
      unfold TCPServer.removeInLoop
      exact if_neg fun hsome => hfound.mp hsome hremoved
    rw [hdone]
    refine h.of_touches (touches_without.fail .notRemoved) ?_ (fun _ => hc) (h.map_without hown)
      h.keys_without hc (.inr (.inl ⟨c, rfl, ?_⟩))
    · -- It has been removed before, so its phase is the same.
      have hsame : c ∈ c :: s.removed ↔ c ∈ s.removed := iff_of_true List.mem_cons_self hremoved
      show Phase _ c (s.conn c).state
      cases hstate : (s.conn c).state <;> rw [hstate] at hphase
      · exact absurd hstate hs
      · refine ⟨?_, hphase.2⟩
        show (s.conn c).tasks = if c ∈ c :: s.removed then _ else _
        rw [hphase.1]
        simp only [hsame]
      · exact hphase.elim
      · exact ⟨hphase.1, hphase.2.1, hphase.2.2.1, List.mem_cons_self⟩
    · show 2 ≤ (c :: s.removed).count c
      rw [List.count_cons_self]
      exact Nat.succ_le_succ (List.count_pos_iff.mpr hremoved)
  · have hdone : s.removeInLoop c = (s.without c).runInLoop c .connectDestroyed := by
      unfold TCPServer.removeInLoop
      exact if_pos (hfound.mpr hremoved)
    cases hstate : (s.conn c).state <;> rw [hstate] at hphase
    · exact absurd hstate hs
    · obtain ⟨htasks, htied, hr⟩ := hphase
      rw [if_neg hremoved] at htasks
      have hfault : (s.without c).fault = none := hf
      rw [hdone]
      unfold runInLoop
      split_ifs with hbase
      · have hr' : (s.without c).Registered c := hr
        have hdestroyed := connectDestroyed_eq hr' hstate
        refine h.of_touches (touches_without.trans (touches_connectDestroyed hr' hstate))
          (phase_connectDestroyed hr' hstate htasks List.mem_cons_self) (fun _ => hc) ?_ ?_ hc (.inl ?_) <;>
          show _ <;> rw [show (s.without c).runTask c .connectDestroyed = _ from hdestroyed]
        · exact h.map_without hown
        · exact h.keys_without
        · exact hf
      · -- Its `tie` keeps the connection when it is no longer in the `map`.
        have halive : (s.without c).alive c = true := by
          refine alive_iff.mpr (.inr ?_)
          show (s.conn c).owned = true
          unfold Conn.owned
          rw [htied]
          rfl
        have hqueued : Touches c (s.without c)
            ((s.without c).setConn c { s.conn c with tasks := (s.conn c).tasks ++ [.connectDestroyed] }) :=
          touches_setConn rfl rfl rfl fun _ => halive
        have htouches := touches_without.trans hqueued
        refine h.of_touches htouches ?_ (fun _ => hc) (h.map_without hown) h.keys_without hc (.inl hf)
        rw [setConn_self]
        show Phase _ c (s.conn c).state
        rw [hstate]
        refine ⟨?_, ?_, (registered_setConn (by rfl) (by rfl)).mpr hr⟩
        · rw [setConn_self]
          show (s.conn c).tasks ++ _ = if c ∈ c :: s.removed then _ else _
          rw [htasks, if_pos List.mem_cons_self]
          rfl
        · rw [setConn_self]
          exact htied
    · exact hphase.elim
    · exact absurd hphase.2.2.2 hremoved

/-- The pointers that refer to a connection do not matter to its phase, once it is established. -/
theorem Inv.setConn (h : Inv p s) (hc : c < s.made) {conn : Conn}
    (hplace : conn.sockaddr = (s.conn c).sockaddr ∧ conn.fd = (s.conn c).fd ∧ conn.loop = (s.conn c).loop)
    (hsame : conn.state = (s.conn c).state ∧ conn.tasks = (s.conn c).tasks ∧ conn.tied = (s.conn c).tied)
    (hremovals : (s.conn c).state = .kConnecting → conn.removals = (s.conn c).removals)
    (halive : conn.owned = true → s.alive c = true) : Inv p (s.setConn c conn) := by
  have hphase := h.phase c hc
  have hr : (s.setConn c conn).Registered c ↔ s.Registered c := registered_setConn hplace.2.1 hplace.2.2
  refine h.of_touches_map (touches_setConn hplace.1 hplace.2.1 hplace.2.2 halive) hc ?_ rfl rfl rfl
  rw [setConn_self, hsame.1]
  cases hstate : (s.conn c).state <;> rw [hstate] at hphase <;>
    simp only [Phase, setConn_self, hsame.2.1, hsame.2.2, hr] at hphase ⊢
  · rw [hremovals hstate]
    exact hphase
  · exact hphase
  · exact hphase

theorem Inv.unshared (h : Inv p s) (hc : c < s.made) (halive : s.alive c = true) : Unshared s c :=
  fun b hb hba hbc => (h.distinct b hb c hc hba halive hbc).1

theorem Inv.close (h : Inv p s) (hc : c < s.made) (halive : s.alive c = true)
    (hs : (s.conn c).state ≠ .kConnecting) (hf : s.fault = none) : Inv p (s.removeConnection c) := by
  unfold removeConnection
  split_ifs with hbase
  · exact h.removeInLoop hc (h.unshared hc halive) hs hf
  · exact h.setConn hc ⟨rfl, rfl, rfl⟩ ⟨rfl, rfl, rfl⟩ (fun hconnecting => absurd hconnecting hs)
      fun _ => halive

/-- The closure of a removal owns the connection until it is done. -/
theorem Inv.removal (h : Inv p s) (hc : c < s.made) (hpos : 0 < (s.conn c).removals) (hf : s.fault = none) :
    Inv p ((s.setConn c { s.conn c with removals := (s.conn c).removals - 1 }).removeInLoop c) := by
  have halive : s.alive c = true := alive_iff.mpr (.inr (by simp [Conn.owned, hpos]))
  have hs : (s.conn c).state ≠ .kConnecting := by
    intro hs
    have hphase := h.phase c hc
    rw [hs] at hphase
    rw [hphase.2.2.1] at hpos
    exact absurd hpos (Nat.lt_irrefl 0)
  have hpop : Inv p (s.setConn c { s.conn c with removals := (s.conn c).removals - 1 }) :=
    h.setConn hc ⟨rfl, rfl, rfl⟩ ⟨rfl, rfl, rfl⟩ (fun hconnecting => absurd hconnecting hs) fun _ => halive
  have htouches : Touches c s (s.setConn c { s.conn c with removals := (s.conn c).removals - 1 }) :=
    touches_setConn rfl rfl rfl fun _ => halive
  refine hpop.removeInLoop hc (fun b hb hba hbc => ?_) (by rw [setConn_self]; exact hs) hf
  rw [(htouches.place_eq b).1, (htouches.place_eq c).1]
  exact h.unshared hc halive b hb (htouches.alive b hba) hbc

/-! ## A new connection -/

/-- The server with one connection more. -/
def accepted (s : TCPServer) (pool : EventLoopThreadPool ℕ) (conn : Conn) : TCPServer :=
  { s with
    pool := pool, made := s.made + 1, conn := Function.update s.conn s.made conn
    map := (conn.sockaddr, s.made) :: s.map }

/-- Nothing that exists has the address or the descriptor. -/
def Fresh (s : TCPServer) (sockaddr fd : ℕ) : Prop :=
  ∀ c < s.made, s.alive c = true → (s.conn c).sockaddr ≠ sockaddr ∧ (s.conn c).fd ≠ fd

theorem emplace_of_fresh (h : Inv p s) {sockaddr fd : ℕ} (hfresh : Fresh s sockaddr fd)
    {s₁ : TCPServer} (hmap : s₁.map = s.map) :
    s₁.emplace sockaddr c = { s₁ with map := (sockaddr, c) :: s.map } := by
  unfold emplace
  rw [if_neg, hmap]
  intro hany
  rw [hmap, List.any_eq_true] at hany
  obtain ⟨⟨k, b⟩, hmem, hkey⟩ := hany
  obtain ⟨hb, halive⟩ := h.alive_of_mem hmem
  exact (hfresh b hb halive).1 (((h.map k b).mp hmem).2.2.symm.trans (beq_iff_eq.mp hkey))

/-- No channel has the place of a fresh descriptor. -/
theorem Inv.channel_of_fresh (h : Inv p s) {sockaddr fd : ℕ} (hfresh : Fresh s sockaddr fd) (loop : ℕ) :
    s.channels loop fd = none := by
  cases hslot : s.channels loop fd with
  | none => rfl
  | some b =>
    obtain ⟨hb, hloop, hfd⟩ := h.channels loop fd b hslot
    have hr : s.Registered b := by
      unfold Registered
      rw [← hloop, ← hfd]
      exact hslot
    exact absurd hfd.symm (hfresh b hb (h.alive_of_registered hb hr)).2

/-- On a worker loop, the two tasks are queued. -/
theorem newConnection_worker (h : Inv p s) {sockaddr fd loop : ℕ} {pool : EventLoopThreadPool ℕ}
    (hfresh : Fresh s sockaddr fd) (hnext : s.pool.getNextLoop = some (loop, pool)) (hloop : loop ≠ 0)
    (hfd : fd ≠ 0) : s.newConnection sockaddr fd = some (s.accepted pool
      ⟨sockaddr, fd, loop, .kConnecting, false, [.add, .connectEstablished], 0, 0⟩) := by
  unfold newConnection
  rw [hnext, Option.map_some, if_neg hfd]
  dsimp only
  rw [emplace_of_fresh h hfresh (by rfl)]
  unfold runInLoop TCPServer.setConn accepted
  simp only [Function.update_self, if_neg hloop, Function.update_idem, List.nil_append]
  rfl

/-- On the base loop, they are run at once. -/
theorem newConnection_base (h : Inv p s) {sockaddr fd : ℕ} {pool : EventLoopThreadPool ℕ}
    (hfresh : Fresh s sockaddr fd) (hnext : s.pool.getNextLoop = some (0, pool)) (hfd : fd ≠ 0) :
    s.newConnection sockaddr fd = some ((s.accepted pool
      ⟨sockaddr, fd, 0, .kConnected, true, [], 0, 0⟩).setChannel s.made (some s.made)) := by
  have hslot := h.channel_of_fresh hfresh 0
  unfold newConnection
  rw [hnext, Option.map_some, if_neg hfd]
  dsimp only
  rw [emplace_of_fresh h hfresh (by rfl)]
  change some (((s.accepted pool ⟨sockaddr, fd, 0, .kConnecting, false, [], 0, 0⟩).runInLoop s.made
    .add).runInLoop s.made .connectEstablished) = _
  generalize hs₁ : s.accepted pool ⟨sockaddr, fd, 0, .kConnecting, false, [], 0, 0⟩ = s₁
  have hconn : s₁.conn s.made = ⟨sockaddr, fd, 0, .kConnecting, false, [], 0, 0⟩ := by
    rw [← hs₁]
    exact Function.update_self ..
  have halive : s₁.alive s.made = true := by
    refine alive_iff.mpr (.inl ⟨sockaddr, ?_⟩)
    rw [← hs₁]
    exact List.mem_cons_self
  have hadd : s₁.runInLoop s.made .add = s₁.setChannel s.made (some s.made) := by
    unfold runInLoop runTask add
    rw [hconn, if_pos rfl, if_neg (by rw [halive]; exact Bool.noConfusion), if_neg]
    rw [← hs₁]
    exact not_not_intro hslot
  have hestablished : (s₁.setChannel s.made (some s.made)).runInLoop s.made .connectEstablished =
      (s₁.setChannel s.made (some s.made)).setConn s.made ⟨sockaddr, fd, 0, .kConnected, true, [], 0, 0⟩ := by
    have hconn' : (s₁.setChannel s.made (some s.made)).conn s.made =
        ⟨sockaddr, fd, 0, .kConnecting, false, [], 0, 0⟩ := hconn
    unfold runInLoop runTask connectEstablished
    rw [hconn', if_pos rfl, if_neg (not_not_intro rfl),
      if_neg (not_not_intro (registered_setChannel.mpr rfl))]
  rw [hadd, hestablished, ← hs₁]
  unfold accepted setChannel TCPServer.setConn
  simp only [Function.update_self, Function.update_idem]

theorem alive_accepted (pool : EventLoopThreadPool ℕ) (conn : Conn) (hb : b < s.made) :
    (s.accepted pool conn).alive b = s.alive b := by
  have hne : b ≠ s.made := Nat.ne_of_lt hb
  have hentry : (s.made == b) = false := beq_eq_false_iff_ne.mpr hne.symm
  unfold alive accepted
  simp only [List.any_cons, hentry, Bool.false_or, Function.update_of_ne hne]

/-- A server that has taken in a connection keeps the invariant, if only the connection is in its phase. -/
theorem Inv.of_accepted (h : Inv p s) (hp : p.Started) {pool : EventLoopThreadPool ℕ} {conn : Conn}
    (hfresh : Fresh s conn.sockaddr conn.fd) (hnext : s.pool.getNextLoop = some (conn.loop, pool))
    (hf : s.fault = none) (hmade : s'.made = s.made + 1)
    (hs' : s'.pool = pool ∧ s'.conn = Function.update s.conn s.made conn ∧
      s'.map = (conn.sockaddr, s.made) :: s.map ∧ s'.removed = s.removed ∧ s'.fault = s.fault)
    (hregistered : ∀ b < s.made, (s'.Registered b ↔ s.Registered b))
    (hchannels : ∀ loop fd b, s'.channels loop fd = some b →
      s.channels loop fd = some b ∨ b = s.made ∧ loop = conn.loop ∧ fd = conn.fd)
    (hphase : Phase s' s.made conn.state) : Inv p s' := by
  obtain ⟨hpool, hconn, hmap, hremoved, hfault⟩ := hs'
  have hself : s'.conn s.made = conn := by rw [hconn, Function.update_self]
  have hother : ∀ b < s.made, s'.conn b = s.conn b := fun b hb => by
    rw [hconn, Function.update_of_ne (Nat.ne_of_lt hb)]
  have halive : ∀ b < s.made, s'.alive b = s.alive b := fun b hb => by
    rw [← alive_accepted pool conn hb]
    unfold alive accepted
    rw [hmap, hconn]
  have hnew : s.made ∉ s.removed := fun hmem => Nat.lt_irrefl _ (h.removed _ hmem)
  refine ⟨fun b hb => ?_, fun a ha b hb haa hba hne => ?_, fun k b => ?_, ?_, fun loop fd b hch => ?_,
    fun b hb => ?_, ?_, .inl (hfault.trans hf)⟩
  · rw [hmade] at hb
    rcases Nat.lt_succ_iff_lt_or_eq.mp hb with hlt | rfl
    · have hphase := h.phase b hlt
      rw [hother b hlt]
      cases hstate : (s.conn b).state <;> rw [hstate] at hphase <;>
        simp only [Phase, hother b hlt, hregistered b hlt, hremoved] at hphase ⊢ <;> exact hphase
    · rw [hself]
      exact hphase
  · rw [hmade] at ha hb
    rcases Nat.lt_succ_iff_lt_or_eq.mp ha with ha | rfl <;>
      rcases Nat.lt_succ_iff_lt_or_eq.mp hb with hb | rfl
    · rw [hother a ha, hother b hb]
      exact h.distinct a ha b hb (halive a ha ▸ haa) (halive b hb ▸ hba) hne
    · rw [hself, hother a ha]
      exact hfresh a ha (halive a ha ▸ haa)
    · rw [hself, hother b hb]
      exact ⟨(hfresh b hb (halive b hb ▸ hba)).1.symm, (hfresh b hb (halive b hb ▸ hba)).2.symm⟩
    · exact absurd rfl hne
  · rw [hmap, hmade, hremoved, List.mem_cons, Prod.mk.injEq]
    constructor
    · rintro (⟨rfl, rfl⟩ | hmem)
      · rw [hself]
        exact ⟨Nat.lt_succ_self _, hnew, rfl⟩
      · obtain ⟨hb, hnot, hk⟩ := (h.map k b).mp hmem
        rw [hother b hb]
        exact ⟨Nat.lt_succ_of_lt hb, hnot, hk⟩
    · rintro ⟨hb, hnot, hk⟩
      rcases Nat.lt_succ_iff_lt_or_eq.mp hb with hlt | rfl
      · rw [hother b hlt] at hk
        exact .inr ((h.map k b).mpr ⟨hlt, hnot, hk⟩)
      · rw [hself] at hk
        exact .inl ⟨hk, rfl⟩
  · -- Every entry of the `map` is of a connection that is alive, so the new key is new.
    rw [hmap, List.map_cons]
    refine List.nodup_cons.mpr ⟨fun hmem => ?_, h.keys⟩
    obtain ⟨⟨k, b⟩, hmem, hkey⟩ := List.mem_map.mp hmem
    obtain ⟨hb, hba⟩ := h.alive_of_mem hmem
    exact (hfresh b hb hba).1 (((h.map k b).mp hmem).2.2.symm.trans hkey)
  · rw [hmade]
    rcases hchannels loop fd b hch with hch | ⟨rfl, hloop, hfd⟩
    · obtain ⟨hb, hplace⟩ := h.channels loop fd b hch
      rw [hother b hb]
      exact ⟨Nat.lt_succ_of_lt hb, hplace⟩
    · rw [hself]
      exact ⟨Nat.lt_succ_self _, hloop, hfd⟩
  · rw [hremoved] at hb
    rw [hmade]
    exact Nat.lt_succ_of_lt (h.removed b hb)
  · have hloops : (List.range s'.made).map (fun c => (s'.conn c).loop) =
        ((List.range s.made).map fun c => (s.conn c).loop) ++ [conn.loop] := by
      rw [hmade, List.range_succ, List.map_append, List.map_singleton, hself]
      congr 1
      exact List.map_congr_left fun b hb => by rw [hother b (List.mem_range.mp hb)]
    rw [hloops, hpool]
    have hcall : EventLoopThreadPool.Calls.step ⟨s.pool, (List.range s.made).map fun c => (s.conn c).loop⟩
        .getNextLoop = some ⟨pool, ((List.range s.made).map fun c => (s.conn c).loop) ++ [conn.loop]⟩ := by
      unfold EventLoopThreadPool.Calls.step
      dsimp only
      rw [hnext]
      rfl
    obtain ⟨calls, hcalls, hturn, -⟩ := h.inTurn.step hp .getNextLoop
    exact Option.some.inj (hcall.symm.trans hcalls) ▸ hturn

theorem conn_accepted_self (s : TCPServer) (pool : EventLoopThreadPool ℕ) (conn : Conn) :
    (s.accepted pool conn).conn s.made = conn :=
  Function.update_self ..

theorem registered_accepted {pool : EventLoopThreadPool ℕ} {conn : Conn} (hb : b < s.made) :
    (s.accepted pool conn).Registered b ↔ s.Registered b := by
  have hconn : (s.accepted pool conn).conn b = s.conn b := Function.update_of_ne (Nat.ne_of_lt hb) ..
  unfold Registered
  rw [hconn]
  exact Iff.rfl

/-- The queued tasks find a connection that is alive, and a place that is free, whenever they run. -/
theorem Inv.accept_worker (h : Inv p s) (hp : p.Started) {sockaddr fd loop : ℕ} {pool : EventLoopThreadPool ℕ}
    (hfresh : Fresh s sockaddr fd) (hnext : s.pool.getNextLoop = some (loop, pool)) (hf : s.fault = none) :
    Inv p (s.accepted pool ⟨sockaddr, fd, loop, .kConnecting, false, [.add, .connectEstablished], 0, 0⟩) := by
  refine h.of_accepted hp hfresh hnext hf rfl ⟨rfl, rfl, rfl, rfl, rfl⟩ (fun b hb => registered_accepted hb)
    (fun _ _ _ hch => .inl hch) ?_
  refine ⟨?_, ?_, ?_, fun hmem => Nat.lt_irrefl _ (h.removed _ hmem)⟩ <;> rw [conn_accepted_self]
  refine (if_neg fun hr => ?_).symm
  unfold Registered at hr
  rw [conn_accepted_self] at hr
  exact absurd ((h.channel_of_fresh hfresh loop).symm.trans hr) (by simp)

theorem Inv.accept_base (h : Inv p s) (hp : p.Started) {sockaddr fd : ℕ} {pool : EventLoopThreadPool ℕ}
    (hfresh : Fresh s sockaddr fd) (hnext : s.pool.getNextLoop = some (0, pool)) (hf : s.fault = none) :
    Inv p ((s.accepted pool ⟨sockaddr, fd, 0, .kConnected, true, [], 0, 0⟩).setChannel s.made
      (some s.made)) := by
  have hslot : (s.accepted pool ⟨sockaddr, fd, 0, .kConnected, true, [], 0, 0⟩).channels
      ((s.accepted pool ⟨sockaddr, fd, 0, .kConnected, true, [], 0, 0⟩).conn s.made).loop
      ((s.accepted pool ⟨sockaddr, fd, 0, .kConnected, true, [], 0, 0⟩).conn s.made).fd = none := by
    rw [conn_accepted_self]
    exact h.channel_of_fresh hfresh 0
  have htouches : Touches s.made (s.accepted pool ⟨sockaddr, fd, 0, .kConnected, true, [], 0, 0⟩)
      ((s.accepted pool ⟨sockaddr, fd, 0, .kConnected, true, [], 0, 0⟩).setChannel s.made (some s.made)) :=
    touches_setChannel (.inr rfl) (.inl hslot)
  refine h.of_accepted hp hfresh hnext hf rfl ⟨rfl, rfl, rfl, rfl, rfl⟩ (fun b hb => ?_)
    (fun loop fd b hch => ?_) ?_
  · exact (htouches.registered b (Nat.ne_of_lt hb)).trans (registered_accepted hb)
  · rcases htouches.channels loop fd b hch with hch | ⟨hb, hplace⟩
    · exact .inl hch
    · rw [conn_accepted_self] at hplace
      exact .inr ⟨hb, hplace⟩
  · have hself : ((s.accepted pool ⟨sockaddr, fd, 0, .kConnected, true, [], 0, 0⟩).setChannel s.made
        (some s.made)).conn s.made = ⟨sockaddr, fd, 0, .kConnected, true, [], 0, 0⟩ :=
      conn_accepted_self s pool _
    refine ⟨?_, ?_, registered_setChannel.mpr rfl⟩ <;> rw [hself]
    exact (if_neg fun hmem => Nat.lt_irrefl _ (h.removed _ hmem)).symm

/-- The descriptor of a new connection is `0`. -/
theorem Inv.fail_noDescriptor (h : Inv p s) : Inv p (s.fail .noDescriptor) :=
  ⟨h.phase, h.distinct, h.map, h.keys, h.channels, h.removed, h.inTurn, .inr (.inr rfl)⟩

theorem Inv.accept (h : Inv p s) (hp : p.Started) {sockaddr fd : ℕ} (hfresh : Fresh s sockaddr fd)
    (hf : s.fault = none) (hs : s.newConnection sockaddr fd = some s') : Inv p s' := by
  obtain ⟨loop, -, hnext⟩ := (h.inTurn.started hp).getNextLoop
  by_cases hfd : fd = 0
  · unfold newConnection at hs
    rw [hnext, Option.map_some, if_pos hfd] at hs
    cases hs
    exact h.fail_noDescriptor
  · by_cases hbase : loop = 0
    · subst hbase
      rw [newConnection_base h hfresh hnext hfd] at hs
      cases hs
      exact h.accept_base hp hfresh hnext hf
    · rw [newConnection_worker h hfresh hnext hbase hfd] at hs
      cases hs
      exact h.accept_worker hp hfresh hnext hf

theorem Inv.step (h : Inv p s) (hp : p.Started) {op : Op} (hs : s.step op = some s') : Inv p s' := by
  unfold TCPServer.step at hs
  split_ifs at hs with hf
  cases op with
  | accept sockaddr fd =>
    dsimp only at hs
    split_ifs at hs with hfresh
    exact h.accept hp hfresh hf hs
  | task c =>
    dsimp only at hs
    split_ifs at hs with hc
    split at hs
    · cases hs
    · rename_i task tasks htasks
      cases hs
      exact h.task hc htasks
  | close c =>
    dsimp only at hs
    split_ifs at hs with hclose
    cases hs
    exact h.close hclose.1 hclose.2.1 hclose.2.2 hf
  | removal c =>
    dsimp only at hs
    split_ifs at hs with hremoval
    cases hs
    exact h.removal hremoval.1 hremoval.2 hf
  | hold c =>
    dsimp only at hs
    split_ifs at hs with hhold
    cases hs
    exact h.setConn hhold.1 ⟨rfl, rfl, rfl⟩ ⟨rfl, rfl, rfl⟩ (fun _ => rfl) fun _ => hhold.2
  | drop c =>
    dsimp only at hs
    split_ifs at hs with hdrop
    cases hs
    have halive : s.alive c = true := alive_iff.mpr (.inr (by simp [Conn.owned, hdrop.2]))
    exact h.setConn hdrop.1 ⟨rfl, rfl, rfl⟩ ⟨rfl, rfl, rfl⟩ (fun _ => rfl) fun _ => halive

/-! ## What the tables say -/

/-- The `map` has exactly the connections whose removal has not run, each under its own address; a loop has
exactly the channels that have been added and not cancelled, each under its own descriptor, and all of them
exist. What goes wrong is a second removal of a connection, or `0` as the descriptor of a new one. Each loop
of the pool has its share of the connections. -/
structure Sound (p : EventLoopThreadPool ℕ) (s : TCPServer) : Prop where
  fault : s.fault = none ∨ (∃ c, s.fault = some .notRemoved ∧ 2 ≤ s.removed.count c) ∨
    s.fault = some .noDescriptor
  map : ∀ key c, (key, c) ∈ s.map ↔ c < s.made ∧ c ∉ s.removed ∧ key = (s.conn c).sockaddr
  keys : (s.map.map Prod.fst).Nodup
  channels : ∀ loop fd c, s.channels loop fd = some c ↔
    c < s.made ∧ loop = (s.conn c).loop ∧ fd = (s.conn c).fd ∧ .add ∉ (s.conn c).tasks ∧
      (s.conn c).state ≠ .kDisconnected
  exist : ∀ loop fd c, s.channels loop fd = some c → s.alive c = true
  share : ∀ loop ∈ p.loops_,
    s.made / p.loops_.length ≤ ((List.range s.made).map fun c => (s.conn c).loop).count loop ∧
      ((List.range s.made).map fun c => (s.conn c).loop).count loop ≤ s.made / p.loops_.length + 1

/-- Where a connection is registered. -/
theorem Inv.registered_iff (h : Inv p s) (hc : c < s.made) :
    s.Registered c ↔ .add ∉ (s.conn c).tasks ∧ (s.conn c).state ≠ .kDisconnected := by
  have hphase := h.phase c hc
  cases hstate : (s.conn c).state <;> rw [hstate] at hphase
  · rw [hphase.1]
    by_cases hr : s.Registered c
    · simp [hr]
    · simp [hr]
  · rw [hphase.1]
    refine iff_of_true hphase.2.2 ⟨?_, StateE.noConfusion⟩
    split_ifs <;> simp
  · exact hphase.elim
  · exact iff_of_false hphase.2.2.1 fun hnot => hnot.2 rfl

theorem Inv.sound (h : Inv p s) (hp : p.Started) (hnodup : p.loops_.Nodup) : Sound p s := by
  have hregistered : ∀ loop fd c, s.channels loop fd = some c → c < s.made ∧ s.Registered c := by
    intro loop fd c hch
    obtain ⟨hc, hloop, hfd⟩ := h.channels loop fd c hch
    refine ⟨hc, ?_⟩
    unfold Registered
    rw [← hloop, ← hfd]
    exact hch
  refine ⟨h.fault, h.map, h.keys, fun loop fd c => ⟨fun hch => ?_, ?_⟩, fun loop fd c hch => ?_,
    fun loop hloop => ?_⟩
  · obtain ⟨hc, hr⟩ := hregistered loop fd c hch
    obtain ⟨-, hloop, hfd⟩ := h.channels loop fd c hch
    exact ⟨hc, hloop, hfd, (h.registered_iff hc).mp hr⟩
  · rintro ⟨hc, rfl, rfl, hplace⟩
    exact (h.registered_iff hc).mpr hplace
  · obtain ⟨hc, hr⟩ := hregistered loop fd c hch
    exact h.alive_of_registered hc hr
  · -- There has been one call of `getNextLoop` for each connection.
    have hgiven : ((List.range s.made).map fun c => (s.conn c).loop).length =
        (List.replicate s.made EventLoopThreadPool.Call.getNextLoop).count .getNextLoop := by
      rw [List.length_map, List.length_range, List.count_replicate_self]
    have hshare := (h.inTurn.balanced hp hnodup hgiven).share loop hloop
    rwa [List.count_replicate_self] at hshare

/-- A pool that has been started has different loops. -/
theorem started_nodup {numThreads : ℕ}
    (hstart : EventLoopThreadPool.start 0 numThreads Nat.succ = some p) : p.Started ∧ p.loops_.Nodup := by
  refine ⟨(EventLoopThreadPool.started_of_start hstart).1, ?_⟩
  unfold EventLoopThreadPool.start at hstart
  split_ifs at hstart
  cases hstart
  refine List.nodup_cons.mpr ⟨?_, List.nodup_range.map Nat.succ_injective⟩
  intro hmem
  obtain ⟨i, -, hi⟩ := List.mem_map.mp hmem
  exact Nat.succ_ne_zero i hi

/-! ### Where the descriptor is `0` -/

theorem noDescriptor_of_runTask {task : ServerTask} (h : (s.runTask c task).fault = some .noDescriptor) :
    s.fault = some .noDescriptor := by
  unfold runTask add connectEstablished connectDestroyed at h
  cases task <;> dsimp only at h <;> split_ifs at h <;> first | exact h | cases h

theorem noDescriptor_of_runInLoop {task : ServerTask}
    (h : (s.runInLoop c task).fault = some .noDescriptor) : s.fault = some .noDescriptor := by
  unfold runInLoop at h
  split_ifs at h
  · exact noDescriptor_of_runTask h
  · exact h

theorem noDescriptor_of_removeInLoop (h : (s.removeInLoop c).fault = some .noDescriptor) :
    s.fault = some .noDescriptor := by
  unfold TCPServer.removeInLoop at h
  dsimp only at h
  split_ifs at h
  · have hwithout : (s.without c).fault = some .noDescriptor := noDescriptor_of_runInLoop h
    exact hwithout
  · cases h

/-- That assertion fails in no other step. -/
theorem accept_of_noDescriptor {op : Op} (hs : s.step op = some s') (h : s'.fault = some .noDescriptor) :
    ∃ sockaddr, op = .accept sockaddr 0 := by
  unfold TCPServer.step at hs
  split_ifs at hs with hf
  have hbefore : s.fault ≠ some .noDescriptor := by simp [hf]
  cases op with
  | accept sockaddr fd =>
    dsimp only at hs
    split_ifs at hs
    unfold newConnection at hs
    obtain ⟨⟨loop, pool⟩, -, rfl⟩ := Option.map_eq_some_iff.mp hs
    split_ifs at h with hfd
    · exact ⟨sockaddr, hfd ▸ rfl⟩
    · have hemplaced := noDescriptor_of_runInLoop (noDescriptor_of_runInLoop h)
      unfold emplace at hemplaced
      split_ifs at hemplaced <;> exact absurd hemplaced hbefore
  | task c =>
    dsimp only at hs
    split_ifs at hs
    split at hs <;> cases hs
    exact absurd (noDescriptor_of_runTask h) hbefore
  | close c =>
    dsimp only at hs
    split_ifs at hs
    cases hs
    unfold removeConnection at h
    split_ifs at h
    · exact absurd (noDescriptor_of_removeInLoop h) hbefore
    · exact absurd h hbefore
  | removal c =>
    dsimp only at hs
    split_ifs at hs
    cases hs
    exact absurd (noDescriptor_of_removeInLoop h) hbefore
  | hold c | drop c =>
    dsimp only at hs
    split_ifs at hs
    cases hs
    exact absurd h hbefore

/-! ### Every run -/

/-- Over every run of a server with any number of threads the tables are right; and the assertion on the
descriptor fails only if `accept` has returned `0`. -/
theorem sound_of_run (p : EventLoopThreadPool ℕ) (numThreads : ℕ)
    (hstart : EventLoopThreadPool.start 0 numThreads Nat.succ = some p) (ops : List Op) :
    Machine.Always step (Sound p) (initial p) ops ∧
      ∀ s, Machine.run step (initial p) ops = some s → s.fault = some .noDescriptor →
        ∃ sockaddr, .accept sockaddr 0 ∈ ops := by
  obtain ⟨hp, hnodup⟩ := started_nodup hstart
  constructor
  · exact Machine.always_of_meets (fun _ h => h.sound hp hnodup) (fun _ _ _ h _ hs => h.step hp hs)
      (inv_initial hp) (Machine.meets_of_labels (D := fun _ => True) fun _ _ => trivial)
  · intro s hrun
    refine Machine.run_history (I := fun ops s => s.fault = some .noDescriptor →
      ∃ sockaddr, .accept sockaddr 0 ∈ ops) (fun ops s op t _ hs hfault => ?_) ?_ hrun
    · obtain ⟨sockaddr, rfl⟩ := accept_of_noDescriptor hs hfault
      exact ⟨sockaddr, List.mem_concat_self⟩
    · intro hfault
      cases hfault

/-- Two threads. The second connection gets the address and the descriptor of the first, which is gone by
then; the third is on the worker loop again. -/
def twoThreads : List Op :=
  [.accept 100 7, .task 0, .task 0, .close 0, .removal 0, .task 0, .accept 100 7, .accept 200 8, .task 2,
    .close 1]

theorem sound_two_threads :
    (Machine.run step (initial ⟨[0, 1], 0⟩) twoThreads).isSome = true ∧
      Machine.Always step (Sound ⟨[0, 1], 0⟩) (initial ⟨[0, 1], 0⟩) twoThreads ∧
      ∀ s, Machine.run step (initial ⟨[0, 1], 0⟩) twoThreads = some s → s.fault = some .noDescriptor →
        ∃ sockaddr, .accept sockaddr 0 ∈ twoThreads :=
  ⟨by decide +kernel, sound_of_run ⟨[0, 1], 0⟩ 2 rfl _⟩

end Hulatang.TCPServer
