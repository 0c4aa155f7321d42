import Hulatang.Io.Ownership

/-!
# A connection and the dispatch of its events

`handleEvent` is called with a raw channel, and the epoll path takes no pointer before the call. What
keeps the connection during it are the shared pointers that exist anyway: the server's map or the client,
the channel's tie, those in the tasks that are queued or running, the temporaries of running calls, and
what user code has kept of the pointers that it is given.

A channel in the epoll set has an owner (`TCPConnection.Accounted`). In the dispatch of an event it is only
taken out on the base loop of a server, where a close runs everything at once; `handleEvent` then goes on
with a channel that is gone, unless user code has kept the connection. This is exact (`outlives_iff_kept`).
-/

namespace Hulatang

/-- What of the loop thread's stack holds a shared pointer: a closure or a local variable for
`connectEstablished` and for `connectDestroyed` up to its end, an argument for a user callback. The
others have a raw channel, or `this`. -/
def Frame.holds : Frame → Bool
  | .connectEstablished | .connectDestroyed | .cancel | .user => true
  | .add | .send | .close | .firstCall _ | .lastCall _ | .crash => false

/-- A connection, and who keeps it alive besides its owner and the tasks. -/
structure OwnedConnection where
  conn : TCPConnection
  /-- Whether `Channel::tie` is set. -/
  tie : Bool
  /-- Whether `handleEvent` is executing on the channel. -/
  dispatching : Bool
  /-- How many pointers user code has kept. -/
  users : ℕ
  deriving DecidableEq

namespace OwnedConnection

/-- A client goes on within the `handleEvent` that has reported its connect. -/
def initial (owner : Owner) : OwnedConnection where
  conn := .initial owner
  tie := false
  dispatching := owner = .client
  users := 0

/-- The shared pointers to the connection. -/
def owners (s : OwnedConnection) : ℕ :=
  s.conn.owned.toNat + s.tie.toNat + s.users + s.conn.removals +
    s.conn.startup.count .connectEstablished + s.conn.queue.count .connectDestroyed +
    s.conn.frames.countP Frame.holds

/-- The steps of the connection, the return of `handleEvent`, and what user code does with pointers. -/
inductive Op
  | conn (op : TCPConnection.Op)
  | handled
  /-- User code copies the pointer that a callback gives it, or one that it has. -/
  | keep
  | release
  deriving DecidableEq

/-- Whether the loop thread takes up a task or an event. -/
def takesUp : TCPConnection.Op → Bool
  | .startup | .task _ | .event _ => true
  | _ => false

/-- Whether `handleEvent` is called. -/
def dispatches : TCPConnection.Op → Bool
  | .event _ => true
  | _ => false

/-- `setTie` in `connectEstablished`, and `clearTie` after the `cancel` of `connectDestroyed`, which is not
reached when that stops the program. -/
def tieAfter (s : OwnedConnection) (op : TCPConnection.Op) (conn : TCPConnection) : Bool :=
  match op, s.conn.frames.head? with
  | .run _, some .connectEstablished => true
  | .run _, some .cancel => conn.stopped && s.tie
  | _, _ => s.tie

/-- One step on a connection that has not been destroyed. The loop thread takes up nothing before
`handleEvent` has returned. -/
def step (s : OwnedConnection) (op : Op) : Option OwnedConnection :=
  if s.owners = 0 ∨ s.conn.stopped then none
  else
    match op with
    | .conn op =>
      if s.dispatching ∧ takesUp op then none
      else (s.conn.step op).map fun conn =>
        { s with conn := conn, tie := s.tieAfter op conn, dispatching := s.dispatching || dispatches op }
    | .handled => if s.dispatching ∧ s.conn.frames = [] then some { s with dispatching := false } else none
    | .keep =>
      if s.conn.frames.head? = some .user ∨ 0 < s.users then some { s with users := s.users + 1 } else none
    | .release => if 0 < s.users then some { s with users := s.users - 1 } else none

/-- The connection is not destroyed while `handleEvent` is executing on its channel. -/
def Outlives (s : OwnedConnection) : Prop :=
  s.dispatching = true → s.conn.stopped = true ∨ 0 < s.owners

/-- On the base loop of a server, `connectDestroyed` comes to its end within `handleEvent` only when user
code has kept the connection, and that does not give up its last pointer before `handleEvent` returns. -/
def Kept (s : OwnedConnection) : Op → Prop
  | .conn (.run _) =>
    s.dispatching = true → s.conn.owner = .serverBase → s.conn.frames.head? = some .cancel →
      s.conn.registered = true → 0 < s.users
  | .release =>
    s.dispatching = true → s.conn.owner = .serverBase → s.conn.registered = false →
      s.conn.frames.countP Frame.holds = 0 → 1 < s.users
  | _ => True

instance (s : OwnedConnection) : DecidablePred s.Kept
  | .conn (.run _) =>
    inferInstanceAs (Decidable (s.dispatching = true → s.conn.owner = .serverBase →
      s.conn.frames.head? = some .cancel → s.conn.registered = true → 0 < s.users))
  | .release =>
    inferInstanceAs (Decidable (s.dispatching = true → s.conn.owner = .serverBase →
      s.conn.registered = false → s.conn.frames.countP Frame.holds = 0 → 1 < s.users))
  | .conn .startup | .conn (.task _) | .conn (.event _) | .conn .userSend | .conn .userClose
  | .conn .otherSend | .conn .otherClose | .conn .disconnect | .conn .removal | .handled | .keep =>
    inferInstanceAs (Decidable True)

/-! ## What is nested in a dispatch on the base loop -/

/-- What `handleEvent` has still to do after its first test; none of it holds a pointer. -/
def Rest (frames : List Frame) : Prop :=
  ∀ f ∈ frames, f = .close ∨ f = .crash ∨ ∃ writes, f = .lastCall writes

/-- The stack in a dispatch: a user callback, in which `send` may run, a `connectDestroyed` or what it
leaves, over the rest of `handleEvent`. Only the latter two are there when the channel is not in the epoll
set any more. -/
inductive Nested : Bool → List Frame → Prop
  | begun (call : Option ReactorCall) (writes : Bool) : Nested true [.firstCall call, .lastCall writes]
  | rest {r : Bool} {frames : List Frame} (h : Rest frames) : Nested r frames
  | user {frames : List Frame} (h : Rest frames) : Nested true (.user :: frames)
  | send {frames : List Frame} (h : Rest frames) : Nested true (.send :: .user :: frames)
  | connectDestroyed {r : Bool} {frames : List Frame} (h : Rest frames) :
      Nested r (.connectDestroyed :: frames)
  | userCancel {r : Bool} {frames : List Frame} (h : Rest frames) : Nested r (.user :: .cancel :: frames)
  | sendCancel {r : Bool} {frames : List Frame} (h : Rest frames) :
      Nested r (.send :: .user :: .cancel :: frames)
  | cancel {r : Bool} {frames : List Frame} (h : Rest frames) : Nested r (.cancel :: frames)

theorem Rest.countP_holds {frames : List Frame} (h : Rest frames) : frames.countP Frame.holds = 0 := by
  refine List.countP_eq_zero.mpr fun f hf => ?_
  rcases h f hf with rfl | rfl | ⟨writes, rfl⟩ <;> simp [Frame.holds]

theorem Rest.close {frames : List Frame} (h : Rest frames) : Rest (.close :: frames) :=
  List.forall_mem_cons.mpr ⟨.inl rfl, h⟩

/-- `handleEvent` goes on. -/
theorem Nested.run_rest {c : TCPConnection} (ho : c.owner = .serverBase) (io : IoResult) {frame : Frame}
    (h : Rest (frame :: c.frames)) :
    Nested (c.runFrame io frame).registered (c.runFrame io frame).frames := by
  obtain ⟨hframe, hrest⟩ := List.forall_mem_cons.mp h
  rcases hframe with rfl | rfl | ⟨writes, rfl⟩
  · show Nested c.close.registered c.close.frames
    rw [TCPConnection.close_frames ho]
    exact .connectDestroyed hrest
  · exact .rest hrest
  · cases writes with
    | false => exact .rest hrest
    | true =>
      cases io with
      | error => exact .rest (Rest.close hrest)
      | again | eof | data => exact .rest hrest

/-- `send` in a user callback changes neither. -/
theorem send_registered (c : TCPConnection) :
    c.send.registered = c.registered ∧ c.send.frames = c.frames := by
  unfold TCPConnection.send TCPConnection.enableWriting TCPConnection.update
  dsimp only
  split_ifs <;> exact ⟨rfl, rfl⟩

/-- What the loop thread does next leaves the stack nested. -/
theorem Nested.run {c : TCPConnection} (ho : c.owner = .serverBase) (io : IoResult) {frame : Frame}
    (h : Nested c.registered (frame :: c.frames)) :
    Nested (c.runFrame io frame).registered (c.runFrame io frame).frames := by
  obtain ⟨r, hr⟩ : ∃ r, r = c.registered := ⟨_, rfl⟩
  obtain ⟨fs, hfs⟩ : ∃ fs, fs = c.frames := ⟨_, rfl⟩
  rw [← hr, ← hfs] at h
  cases h with
  | rest hrest => exact Nested.run_rest ho io (hfs ▸ hrest)
  | begun call writes =>
    have hlast : Rest [.lastCall writes] := by
      intro f hmem
      exact .inr (.inr ⟨writes, List.mem_singleton.mp hmem⟩)
    rw [hfs] at hlast
    cases call with
    | none => exact .rest hlast
    | some call =>
      cases call with
      | handleClose => exact .rest hlast.close
      | handleError => exact .rest hlast
      | handleRead =>
        cases io with
        | again => exact .rest hlast
        | eof => exact .rest hlast.close
        | error => exact .rest (Rest.close (List.forall_mem_cons.mpr ⟨.inr (.inl rfl), hlast⟩))
        | data =>
          show Nested c.registered (.user :: c.frames)
          rw [← hr]
          exact .user hlast
  | user hrest => exact .rest (hfs ▸ hrest)
  | send hrest =>
    show Nested c.send.registered c.send.frames
    rw [(send_registered c).1, (send_registered c).2, ← hr, ← hfs]
    exact .user hrest
  | connectDestroyed hrest =>
    rw [hfs] at hrest
    show Nested _ c.connectDestroyed.frames
    rcases c.connectDestroyed_frames with ⟨hframes, -⟩ | hframes
    · rw [hframes]
      exact .userCancel hrest
    · rw [hframes]
      exact .cancel hrest
  | userCancel hrest =>
    show Nested _ c.frames
    rw [← hfs]
    exact .cancel hrest
  | sendCancel hrest =>
    show Nested c.send.registered c.send.frames
    rw [(send_registered c).1, (send_registered c).2, ← hfs]
    exact .userCancel hrest
  | cancel hrest =>
    have hframes : c.cancel.frames = c.frames := by
      unfold TCPConnection.cancel TCPConnection.ctlDel
      dsimp only
      split_ifs <;> rfl
    show Nested _ c.cancel.frames
    rw [hframes, ← hfs]
    exact .rest hrest

/-- When the channel is not in the epoll set any more, a `connectDestroyed` that is there stops the program
before its end. -/
theorem Nested.run_cancelled {c : TCPConnection} (hr : c.registered = false) (io : IoResult)
    {frame : Frame} (h : Nested false (frame :: c.frames))
    (hholds : 0 < (frame :: c.frames).countP Frame.holds) :
    (c.runFrame io frame).stopped = true ∨ 0 < (c.runFrame io frame).frames.countP Frame.holds := by
  obtain ⟨fs, hfs⟩ : ∃ fs, fs = c.frames := ⟨_, rfl⟩
  rw [← hfs] at h hholds
  cases h with
  | rest hrest =>
    rw [hrest.countP_holds] at hholds
    cases hholds
  | connectDestroyed hrest =>
    rcases c.connectDestroyed_frames with ⟨-, hstopped⟩ | hframes
    · -- `disableAll` asks the kernel to modify what it does not have.
      exact .inl (hstopped hr)
    · right
      show 0 < c.connectDestroyed.frames.countP Frame.holds
      rw [hframes]
      simp [Frame.holds]
  | userCancel hrest =>
    right
    show 0 < c.frames.countP Frame.holds
    rw [← hfs]
    simp [Frame.holds]
  | sendCancel hrest =>
    right
    show 0 < c.send.frames.countP Frame.holds
    rw [(send_registered c).2, ← hfs]
    simp [Frame.holds]
  | cancel hrest => exact .inl (TCPConnection.cancel_of_not_registered hr)

/-! ## What one step can do -/

/-- The steps, guards included. -/
inductive Stepped (s : OwnedConnection) : Op → OwnedConnection → Prop
  | conn (op : TCPConnection.Op) (conn : TCPConnection) (hs : TCPConnection.Stepped s.conn op conn)
      (hd : s.dispatching = true → takesUp op = false) :
      Stepped s (.conn op)
        { s with conn := conn, tie := s.tieAfter op conn, dispatching := s.dispatching || dispatches op }
  | handled (hf : s.conn.frames = []) : Stepped s .handled { s with dispatching := false }
  | keep : Stepped s .keep { s with users := s.users + 1 }
  | release (hu : 0 < s.users) : Stepped s .release { s with users := s.users - 1 }

theorem stepped_of_step {s t : OwnedConnection} {op : Op} (hs : s.step op = some t) :
    s.conn.stopped = false ∧ Stepped s op t := by
  unfold step at hs
  have hlive : ¬ (s.owners = 0 ∨ s.conn.stopped = true) := by
    intro hdead
    rw [if_pos hdead] at hs
    cases hs
  rw [if_neg hlive] at hs
  have hstopped : s.conn.stopped = false := by
    cases hstop : s.conn.stopped with
    | false => rfl
    | true => exact absurd (.inr hstop) hlive
  refine ⟨hstopped, ?_⟩
  cases op with
  | conn op =>
    dsimp only at hs
    split_ifs at hs with hd
    obtain ⟨conn, hconn, rfl⟩ := Option.map_eq_some_iff.mp hs
    refine .conn op conn (TCPConnection.stepped_of_step hconn) fun hdispatch => ?_
    cases htakes : takesUp op with
    | false => rfl
    | true => exact absurd ⟨hdispatch, htakes⟩ hd
  | handled =>
    dsimp only at hs
    split_ifs at hs with hf
    cases hs
    exact .handled hf.2
  | keep =>
    dsimp only at hs
    split_ifs at hs with hk
    cases hs
    exact .keep
  | release =>
    dsimp only at hs
    split_ifs at hs with hu
    cases hs
    exact .release hu

/-! ## Every step -/

/-- The invariant. In a dispatch the channel stays in the epoll set with nothing to take it out, except on
the base loop of a server. -/
structure Inv (s : OwnedConnection) : Prop where
  conn : s.conn.Accounted
  queued : s.dispatching = true → s.conn.owner ≠ .serverBase →
    s.conn.registered = true ∧ .connectDestroyed ∉ s.conn.frames ∧ .cancel ∉ s.conn.frames
  nested : s.dispatching = true → s.conn.owner = .serverBase →
    s.conn.state ≠ .kConnecting ∧ Nested s.conn.registered s.conn.frames
  /-- Who took it out has also let go of the connection. -/
  cancelled : s.dispatching = true → s.conn.owner = .serverBase → s.conn.registered = false →
    s.conn.stopped = false → s.conn.owned = false ∧ s.tie = false

/-- What keeps the connection in a dispatch. -/
def Covered (s : OwnedConnection) : Prop :=
  s.dispatching = true → s.conn.stopped = true ∨ s.conn.registered = true ∨ 0 < s.users ∨
    0 < s.conn.frames.countP Frame.holds

theorem inv_initial (owner : Owner) : Inv (initial owner) := by
  refine ⟨TCPConnection.accounted_initial owner, ?_, ?_, ?_⟩
  · cases owner <;> decide
  · cases owner <;> simp [initial, TCPConnection.initial]
  · cases owner <;> decide

/-- A channel in the epoll set has an owner. -/
theorem Inv.owners_pos {s : OwnedConnection} (h : Inv s) (hr : s.conn.registered = true) : 0 < s.owners := by
  unfold owners
  rcases h.conn.registered hr with howned | hqueue | hdestroyed | hcancel
  · rw [howned, Bool.toNat_true]
    omega
  · have hpos := List.count_pos_iff.mpr hqueue
    omega
  · have hpos : 0 < s.conn.frames.countP Frame.holds := List.countP_pos_iff.mpr ⟨_, hdestroyed, rfl⟩
    omega
  · have hpos : 0 < s.conn.frames.countP Frame.holds := List.countP_pos_iff.mpr ⟨_, hcancel, rfl⟩
    omega

/-- In a dispatch there is no other owner. -/
theorem Inv.outlives_iff {s : OwnedConnection} (h : Inv s) : Outlives s ↔ Covered s := by
  unfold Outlives Covered
  refine imp_congr_right fun hd => or_congr_right' fun hstopped => ?_
  rw [Bool.not_eq_true] at hstopped
  by_cases hr : s.conn.registered = true
  · exact iff_of_true (h.owners_pos hr) (.inl hr)
  have ho : s.conn.owner = .serverBase := by
    by_contra ho
    exact hr (h.queued hd ho).1
  rw [or_iff_right hr]
  rw [Bool.not_eq_true] at hr
  obtain ⟨howned, htie⟩ := h.cancelled hd ho hr hstopped
  obtain ⟨hremovals, hqueue, -⟩ := h.conn.base ho
  obtain ⟨hstartup, -, -⟩ := h.conn.started (h.nested hd ho).1
  have hcount : s.conn.queue.count .connectDestroyed = 0 := List.count_eq_zero.mpr hqueue
  unfold owners
  rw [howned, htie, hremovals, hstartup, hcount, List.count_nil]
  simp only [Bool.toNat_false]
  omega

/-- Elsewhere than on the base loop nothing that the loop thread does leaves the end of a
`connectDestroyed` on its stack, except that itself. -/
theorem frames_runFrame {c : TCPConnection} (ho : c.owner ≠ .serverBase) (io : IoResult) {frame : Frame}
    (hdestroy : frame ≠ .connectDestroyed) (hcancel : frame ≠ .cancel) {f : Frame}
    (hf : f = .connectDestroyed ∨ f = .cancel) (hnot : f ∉ c.frames) : f ∉ (c.runFrame io frame).frames := by
  have huser : f ≠ .user := by rcases hf with rfl | rfl <;> decide
  have hordinary : ¬ (TCPConnection.Ordinary f ∧ f ≠ .connectDestroyed) := by
    rcases hf with rfl | rfl <;> decide
  by_cases hadd : frame = .add
  · subst hadd
    simp only [TCPConnection.runFrame, TCPConnection.add]
    split_ifs <;> exact hnot
  by_cases hestablished : frame = .connectEstablished
  · subst hestablished
    simp only [TCPConnection.runFrame, TCPConnection.connectEstablished, TCPConnection.enableReading,
      TCPConnection.update]
    split_ifs <;> exact List.not_mem_cons_of_ne_of_not_mem huser hnot
  by_cases hclose : frame = .close
  · subst hclose
    obtain ⟨removed, notRemoved, hremove⟩ := { c with closed := c.closed + 1 }.remove_eq
    simp only [TCPConnection.runFrame, TCPConnection.close]
    split
    · rw [hremove]
      exact hnot
    · rename_i howner
      exact absurd howner ho
    · exact hnot
  obtain ⟨new, hframes, hnew⟩ :=
    (TCPConnection.pushes_runFrame c io ⟨hadd, hestablished, hcancel⟩ hclose hdestroy).frames
  rw [hframes]
  exact fun hmem => (List.mem_append.mp hmem).elim (fun hmem => hordinary (hnew f hmem)) hnot

/-- What the loop thread does next; `c` is the connection with that taken off the stack. -/
theorem Inv.run {s : OwnedConnection} (h : Inv s) (hstopped : s.conn.stopped = false) (io : IoResult)
    {frame : Frame} {frames : List Frame} (hf : s.conn.frames = frame :: frames) {c : TCPConnection}
    (hc : c = { s.conn with frames := frames }) :
    Inv { s with conn := c.runFrame io frame, tie := s.tieAfter (.run io) (c.runFrame io frame) } := by
  have hframes : c.frames = frames := by rw [hc]
  have howner : c.owner = s.conn.owner := by rw [hc]
  have hregistered : c.registered = s.conn.registered := by rw [hc]
  have hhead : frame ∈ s.conn.frames := hf ▸ List.mem_cons_self
  have hkeeps := TCPConnection.keeps_runFrame c io frame
  refine ⟨hc ▸ h.conn.step (.run io frame frames hf), fun hd ho => ?_, fun hd ho => ?_,
    fun hd ho hr hstopped' => ?_⟩
  · -- Elsewhere than on the base loop.
    have hqueued : c.owner ≠ .serverBase := fun hg => ho (hkeeps.owner.trans hg)
    obtain ⟨hr, hdestroyed, hcancelled⟩ := h.queued hd (howner ▸ hqueued)
    have hdestroy : frame ≠ .connectDestroyed := fun hg => hdestroyed (hg ▸ hhead)
    have hcancel : frame ≠ .cancel := fun hg => hcancelled (hg ▸ hhead)
    rw [hf, ← hframes] at hdestroyed hcancelled
    refine ⟨TCPConnection.runFrame_registered (hregistered.trans hr) io hcancel, ?_, ?_⟩
    · exact frames_runFrame hqueued io hdestroy hcancel (.inl rfl) (List.not_mem_of_not_mem_cons hdestroyed)
    · exact frames_runFrame hqueued io hdestroy hcancel (.inr rfl) (List.not_mem_of_not_mem_cons hcancelled)
  · have hbase : c.owner = .serverBase := hkeeps.owner.symm.trans ho
    obtain ⟨hstate, hnested⟩ := h.nested hd (howner.symm.trans hbase)
    have hstate' : c.state ≠ .kConnecting := by
      rw [hc]
      exact hstate
    rw [hf, ← hframes, ← hregistered] at hnested
    exact ⟨hkeeps.state hstate', Nested.run hbase io hnested⟩
  · have hbase : s.conn.owner = .serverBase := howner.symm.trans (hkeeps.owner.symm.trans ho)
    obtain ⟨hstate, -⟩ := h.nested hd hbase
    obtain ⟨-, -, hleft⟩ := h.conn.base hbase
    have howned : c.owned = s.conn.owned := by rw [hc]
    have hestablished : frame ≠ .connectEstablished := fun hg => (h.conn.started hstate).2.2 (hg ▸ hhead)
    dsimp only at hr hstopped'
    -- Either this is the `cancel`, with the tie cleared behind it, or the channel was out before.
    by_cases hcancel : frame = .cancel
    · subst hcancel
      refine ⟨hkeeps.owned (howned.trans (hleft (.inr hhead))), ?_⟩
      simp [tieAfter, hf, hstopped']
    · have hnot : s.conn.registered = false := by
        by_contra hreg
        rw [Bool.not_eq_false] at hreg
        rw [TCPConnection.runFrame_registered (hregistered.trans hreg) io hcancel] at hr
        cases hr
      obtain ⟨hlet, htie⟩ := h.cancelled hd hbase hnot hstopped
      refine ⟨hkeeps.owned (howned.trans hlet), ?_⟩
      simpa [tieAfter, hf, hestablished, hcancel] using htie

theorem Nested.rest_of_cancel {r : Bool} {frames : List Frame} (h : Nested r (.cancel :: frames)) :
    Rest frames := by
  cases h with
  | rest hrest =>
    rcases hrest .cancel List.mem_cons_self with hg | hg | ⟨writes, hg⟩ <;> cases hg
  | cancel hrest => exact hrest

/-- It leaves the connection to someone exactly when it is kept. -/
theorem Inv.run_covered {s : OwnedConnection} (h : Inv s) (hcovered : Covered s)
    (hlive : s.conn.stopped = false) (io : IoResult) {frame : Frame} {frames : List Frame}
    (hf : s.conn.frames = frame :: frames) {c : TCPConnection}
    (hc : c = { s.conn with frames := frames }) :
    Covered { s with conn := c.runFrame io frame, tie := s.tieAfter (.run io) (c.runFrame io frame) } ↔
      s.Kept (.conn (.run io)) := by
  have hframes : c.frames = frames := by rw [hc]
  have howner : c.owner = s.conn.owner := by rw [hc]
  have hregistered : c.registered = s.conn.registered := by rw [hc]
  have hstopped : c.stopped = false := by rw [hc, ← hlive]
  refine imp_congr_right fun hd => ?_
  dsimp only at hd ⊢
  rw [hf, List.head?_cons, Option.some_inj]
  by_cases hcancel : frame = .cancel
  · subst hcancel
    by_cases ho : s.conn.owner = .serverBase
    case neg =>
      -- There it is queued, and not run in a dispatch.
      exact absurd (hf ▸ List.mem_cons_self) (h.queued hd ho).2.2
    case pos =>
      have hnested := (h.nested hd ho).2
      rw [hf] at hnested
      by_cases hr : s.conn.registered = true
      case pos =>
        -- The `cancel` held the last pointer, unless user code has one.
        obtain ⟨hr', hstopped', hframes'⟩ := TCPConnection.cancel_of_registered (hregistered.trans hr)
        have hnone : c.cancel.frames.countP Frame.holds = 0 := by
          rw [hframes', hframes]
          exact hnested.rest_of_cancel.countP_holds
        show c.cancel.stopped = true ∨ c.cancel.registered = true ∨ 0 < s.users ∨
          0 < c.cancel.frames.countP Frame.holds ↔ _
        rw [hstopped', hstopped, hr', hnone]
        simp [ho, hr]
      case neg =>
        rw [Bool.not_eq_true] at hr
        have hstopped' := TCPConnection.cancel_of_not_registered (hregistered.trans hr)
        exact iff_of_true (.inl hstopped') fun _ _ hr' => absurd hr' (by simp [hr])
  · -- Nothing else lets go of the last pointer.
    refine iff_of_true ?_ fun _ hg => absurd hg hcancel
    by_cases hr : s.conn.registered = true
    · exact .inr (.inl (TCPConnection.runFrame_registered (hregistered.trans hr) io hcancel))
    rcases hcovered hd with hstop | hreg | husers | hholds
    · rw [hlive] at hstop
      cases hstop
    · exact absurd hreg hr
    · exact .inr (.inr (.inl husers))
    · have ho : s.conn.owner = .serverBase := by
        by_contra ho
        exact hr (h.queued hd ho).1
      have hnested := (h.nested hd ho).2
      rw [Bool.not_eq_true] at hr
      rw [hr, hf, ← hframes] at hnested
      rw [hf, ← hframes] at hholds
      rcases Nested.run_cancelled (hregistered.trans hr) io hnested hholds with hstop | hholds'
      · exact .inl hstop
      · exact .inr (.inr (.inr hholds'))

/-- A step that leaves the channel, the stack and the pointers of user code alone. -/
structure Aside (s t : OwnedConnection) : Prop where
  accounted : t.conn.Accounted
  owner : t.conn.owner = s.conn.owner
  state : t.conn.state = s.conn.state
  registered : t.conn.registered = s.conn.registered
  stopped : t.conn.stopped = s.conn.stopped
  owned : s.conn.owned = false → t.conn.owned = false
  frames : t.conn.frames = s.conn.frames
  tie : t.tie = s.tie
  dispatching : t.dispatching = s.dispatching
  users : t.users = s.users

theorem Inv.of_aside {s t : OwnedConnection} (h : Inv s) (ha : Aside s t) : Inv t := by
  refine ⟨ha.accounted, ?_, ?_, ?_⟩
  · rw [ha.dispatching, ha.owner, ha.registered, ha.frames]
    exact h.queued
  · rw [ha.dispatching, ha.owner, ha.state, ha.registered, ha.frames]
    exact h.nested
  · rw [ha.dispatching, ha.owner, ha.registered, ha.stopped, ha.tie]
    exact fun hd ho hr hs => (h.cancelled hd ho hr hs).imp_left ha.owned

theorem Aside.covered_iff {s t : OwnedConnection} (ha : Aside s t) : Covered t ↔ Covered s := by
  unfold Covered
  rw [ha.dispatching, ha.stopped, ha.registered, ha.users, ha.frames]

/-- Such a step leaves the connection to whom it was left before. -/
theorem Inv.aside {s t : OwnedConnection} (h : Inv s) (hcovered : Covered s) (ha : Aside s t) :
    Inv t ∧ (Covered t ↔ True) :=
  ⟨h.of_aside ha, iff_true_intro (ha.covered_iff.mpr hcovered)⟩

/-- Nothing is asked where no event is being dispatched. -/
theorem inv_of_idle {t : OwnedConnection} (haccounted : t.conn.Accounted) (hd : t.dispatching = false) :
    Inv t ∧ (Covered t ↔ True) := by
  have hnot : t.dispatching ≠ true := by simp [hd]
  exact ⟨⟨haccounted, fun h => absurd h hnot, fun h => absurd h hnot, fun h => absurd h hnot⟩,
    iff_true_intro fun h => absurd h hnot⟩

/-- User code gives a pointer up. -/
theorem Inv.release_covered {s : OwnedConnection} (h : Inv s) (hcovered : Covered s)
    (hlive : s.conn.stopped = false) :
    Covered { s with users := s.users - 1 } ↔ s.Kept .release := by
  refine imp_congr_right fun hd => ?_
  dsimp only at hd ⊢
  by_cases hr : s.conn.registered = true
  · exact iff_of_true (.inr (.inl hr)) fun _ hr' => absurd hr (by simp [hr'])
  have ho : s.conn.owner = .serverBase := by
    by_contra ho
    exact hr (h.queued hd ho).1
  rw [Bool.not_eq_true] at hr
  have hleft := hcovered hd
  rw [hlive, hr] at hleft ⊢
  simp only [Bool.false_eq_true, false_or, ho, forall_const] at hleft ⊢
  constructor
  · intro hcov hzero
    omega
  · intro hkept
    by_cases hzero : s.conn.frames.countP Frame.holds = 0
    · have hone := hkept hzero
      omega
    · omega

theorem Nested.userSend {r : Bool} {frames : List Frame} (h : Nested r frames)
    (hf : frames.head? = some .user) : Nested r (.send :: frames) := by
  cases h with
  | user hrest => exact .send hrest
  | userCancel hrest => exact .sendCancel hrest
  | rest hrest =>
    have hmem := List.mem_of_head? hf
    rcases hrest .user hmem with hg | hg | ⟨writes, hg⟩ <;> cases hg
  | begun | send | connectDestroyed | sendCancel | cancel => cases hf

/-- The invariant is kept by every step, and the step leaves the connection to someone exactly when the
connection is kept. -/
theorem Inv.step {s t : OwnedConnection} {op : Op} (h : Inv s) (hcovered : Covered s)
    (hlive : s.conn.stopped = false) (hs : Stepped s op t) : Inv t ∧ (Covered t ↔ s.Kept op) := by
  cases hs with
  | handled hf => exact inv_of_idle h.conn rfl
  | keep =>
    refine ⟨⟨h.conn, h.queued, h.nested, h.cancelled⟩, iff_of_true (fun _ => ?_) trivial⟩
    exact .inr (.inr (.inl (Nat.succ_pos _)))
  | release hu => exact ⟨⟨h.conn, h.queued, h.nested, h.cancelled⟩, h.release_covered hcovered hlive⟩
  | conn op conn hs hd =>
    have haccounted := h.conn.step hs
    -- A task or an event is only taken up when no event is being dispatched.
    have hidle : takesUp op = true → s.dispatching = false := fun htakes => by
      by_contra hdispatch
      rw [Bool.not_eq_false] at hdispatch
      rw [hd hdispatch] at htakes
      cases htakes
    cases hs with
    | run io frame frames hf =>
      have hdispatching : (s.dispatching || dispatches (.run io)) = s.dispatching := Bool.or_false _
      rw [hdispatching]
      exact ⟨h.run hlive io hf rfl, h.run_covered hcovered hlive io hf rfl⟩
    | startup frame startup hf hstart =>
      exact inv_of_idle haccounted ((Bool.or_false _).trans (hidle rfl))
    | task frame hf hq => exact inv_of_idle haccounted ((Bool.or_false _).trans (hidle rfl))
    | event revent hf hr hcon =>
      -- A dispatch begins with the channel in the epoll set and nothing on the stack.
      refine ⟨⟨haccounted, fun _ _ => ⟨hr, ?_, ?_⟩, fun _ _ => ⟨hcon, ?_⟩, fun _ _ hr' => ?_⟩,
        iff_of_true (fun _ => .inr (.inl hr)) trivial⟩
      · simp [TCPConnection.push, hf]
      · simp [TCPConnection.push, hf]
      · show Nested s.conn.registered (_ :: _ :: s.conn.frames)
        rw [hf, hr]
        exact .begun _ _
      · exact absurd (hr.symm.trans hr') (by decide)
    | userSend hf =>
      have hdispatching : (s.dispatching || dispatches .userSend) = s.dispatching := Bool.or_false _
      rw [hdispatching]
      refine ⟨⟨haccounted, fun hd ho => ?_, fun hd ho => ?_, h.cancelled⟩, iff_of_true (fun hd => ?_) trivial⟩
      · obtain ⟨hr, hdestroyed, hcancelled⟩ := h.queued hd ho
        exact ⟨hr, List.not_mem_cons_of_ne_of_not_mem (by decide) hdestroyed,
          List.not_mem_cons_of_ne_of_not_mem (by decide) hcancelled⟩
      · obtain ⟨hstate, hnested⟩ := h.nested hd ho
        exact ⟨hstate, hnested.userSend hf⟩
      · have hcount : (s.conn.push .send).frames.countP Frame.holds = s.conn.frames.countP Frame.holds :=
          List.countP_cons_of_neg (by decide)
        have hleft := hcovered hd
        rwa [← hcount] at hleft
    | userClose | otherSend | otherClose | disconnect =>
      exact h.aside hcovered ⟨haccounted, rfl, rfl, rfl, rfl, id, rfl, rfl, Bool.or_false _, rfl⟩
    | removal hq =>
      obtain ⟨removed, notRemoved, hremove⟩ := { s.conn with removals := s.conn.removals - 1 }.remove_eq
      rw [hremove] at haccounted ⊢
      exact h.aside hcovered ⟨haccounted, rfl, rfl, rfl, rfl, fun _ => rfl, rfl, rfl, Bool.or_false _, rfl⟩

theorem covered_initial (owner : Owner) : Covered (initial owner) := by
  cases owner <;> simp [Covered, initial, TCPConnection.initial]

/-- The connection outlives the dispatch of its events in exactly the runs in which, on the base loop of a
server, user code keeps it through every `connectDestroyed` that comes to its end within `handleEvent`. -/
theorem outlives_iff_kept (owner : Owner) (ops : List Op) :
    Machine.Always step Outlives (initial owner) ops ↔ Machine.Meets step Kept (initial owner) ops := by
  refine Machine.always_iff_meets (I := fun s => Inv s ∧ Covered s) (D := fun _ _ => True)
    (fun s h => h.1.outlives_iff.mpr h.2) (fun s op t h _ hs => ?_) ⟨inv_initial owner, ?_⟩
    (Machine.meets_of_labels fun _ _ => trivial)
  · obtain ⟨hlive, hstep⟩ := stepped_of_step hs
    obtain ⟨hinv, hiff⟩ := h.1.step h.2 hlive hstep
    exact ⟨hinv.outlives_iff.trans hiff, fun hkept => ⟨hinv, hiff.mpr hkept⟩⟩
  · exact covered_initial owner

/-- On the base loop of a server a poll reports a hang-up: the close takes the connection out of the map,
destroys it and clears the tie, and `handleEvent` goes on with a channel that is gone. -/
theorem destroyed_in_dispatch :
    ¬ ∀ (owner : Owner) (ops : List Op), Machine.Always step Outlives (initial owner) ops := by
  intro h
  -- `add`, `connectEstablished` and its callback; then the dispatch, in which `handleClose`,
  -- `connectDestroyed`, its callback and the `cancel` follow the first test.
  have hrun := h .serverBase
    [.conn (.run .data), .conn (.run .data), .conn (.run .data), .conn (.event Revent.POLLHUP),
      .conn (.run .data), .conn (.run .data), .conn (.run .data), .conn (.run .data), .conn (.run .data)]
  exact absurd (hrun.of_run rfl rfl) (by decide)

/-- The connection stays where it is. -/
theorem Stepped.owner {s t : OwnedConnection} {op : Op} (hs : Stepped s op t) :
    t.conn.owner = s.conn.owner := by
  cases hs with
  | handled | keep | release => rfl
  | conn op conn hs hd =>
    cases hs with
    | run io frame frames hf => exact (TCPConnection.keeps_runFrame _ io frame).owner
    | startup | task | event | userSend | userClose | otherSend | otherClose | disconnect => rfl
    | removal hq =>
      obtain ⟨removed, notRemoved, hremove⟩ := { s.conn with removals := s.conn.removals - 1 }.remove_eq
      rw [hremove]
      rfl

/-- A client's connection, or one on a worker loop, is kept whatever is done. -/
theorem kept_of_queued {s : OwnedConnection} (ho : s.conn.owner ≠ .serverBase) (op : Op) : s.Kept op := by
  cases op with
  | conn op =>
    cases op with
    | run io => exact fun _ hbase => absurd hbase ho
    | startup | task | event | userSend | userClose | otherSend | otherClose | disconnect | removal => trivial
  | release => exact fun _ hbase => absurd hbase ho
  | handled | keep => trivial

/-- So it outlives every dispatch. -/
theorem outlives_of_queued {owner : Owner} (ho : owner ≠ .serverBase) (ops : List Op) :
    Machine.Always step Outlives (initial owner) ops := by
  refine Machine.always_of_meets (I := fun s => Inv s ∧ Covered s ∧ s.conn.owner ≠ .serverBase)
    (G := fun _ _ => True) (fun s h => h.1.outlives_iff.mpr h.2.1) (fun s op t h _ hs => ?_)
    ⟨inv_initial owner, covered_initial owner, ho⟩ (Machine.meets_of_labels fun _ _ => trivial)
  obtain ⟨hinv, hcovered, hqueued⟩ := h
  obtain ⟨hlive, hstep⟩ := stepped_of_step hs
  obtain ⟨hinv', hiff⟩ := hinv.step hcovered hlive hstep
  exact ⟨hinv', hiff.mpr (kept_of_queued hqueued op), hstep.owner ▸ hqueued⟩

end OwnedConnection

end Hulatang
