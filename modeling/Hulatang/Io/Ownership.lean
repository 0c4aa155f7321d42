import Mathlib.Data.List.Count
import Mathlib.Tactic.Tauto
import Hulatang.Io.Registration

/-!
# Who owns a registered channel

A connection whose channel is in the epoll set has an owner: the map or the client, or the
`connectDestroyed` that is to take the channel out (`Accounted`). On the base loop of a server nothing of
a removal is ever queued: the `connectDestroyed` runs within the call that removes the connection.
-/

namespace Hulatang

namespace TCPConnection

/-- The steps of the dispatch of an event, of `send` and of user callbacks leave the queue and the owner's
side alone, and add nothing of a start-up or of a `connectDestroyed` to what is to do. -/
structure Pushes (c c' : TCPConnection) : Prop where
  owner : c'.owner = c.owner
  state : c'.state = c.state
  registered : c'.registered = c.registered
  owned : c'.owned = c.owned
  removals : c'.removals = c.removals
  startup : c'.startup = c.startup
  queue : c'.queue = c.queue
  frames : ∃ new, c'.frames = new ++ c.frames ∧ ∀ f ∈ new, Ordinary f ∧ f ≠ .connectDestroyed

theorem Pushes.refl (c : TCPConnection) : Pushes c c :=
  ⟨rfl, rfl, rfl, rfl, rfl, rfl, rfl, [], rfl, by simp⟩

theorem pushes_push (c : TCPConnection) {frame : Frame} (hf : Ordinary frame ∧ frame ≠ .connectDestroyed) :
    Pushes c (c.push frame) :=
  ⟨rfl, rfl, rfl, rfl, rfl, rfl, rfl, [frame], rfl, by simpa using hf⟩

theorem pushes_runFrame (c : TCPConnection) (io : IoResult) {frame : Frame} (hframe : Ordinary frame)
    (hclose : frame ≠ .close) (hdestroy : frame ≠ .connectDestroyed) : Pushes c (c.runFrame io frame) := by
  cases frame with
  | add => exact absurd rfl hframe.1
  | connectEstablished => exact absurd rfl hframe.2.1
  | cancel => exact absurd rfl hframe.2.2
  | connectDestroyed => exact absurd rfl hdestroy
  | close => exact absurd rfl hclose
  | user => exact .refl c
  | crash => exact ⟨rfl, rfl, rfl, rfl, rfl, rfl, rfl, [], rfl, by simp⟩
  | send =>
    simp only [runFrame, send, enableWriting, update]
    split_ifs <;> exact ⟨rfl, rfl, rfl, rfl, rfl, rfl, rfl, [], rfl, by simp⟩
  | lastCall writes =>
    cases writes with
    | false => exact .refl c
    | true =>
      cases io with
      | error => exact pushes_push c (by decide)
      | again | eof | data => exact .refl c
  | firstCall call =>
    cases call with
    | none => exact .refl c
    | some call =>
      cases call with
      | handleClose => exact pushes_push c (by decide)
      | handleError => exact .refl c
      | handleRead =>
        cases io with
        | again => exact .refl c
        | eof | data => exact pushes_push c (by decide)
        -- The close runs first; `hasWritten` then gets the length of a failed read.
        | error => exact ⟨rfl, rfl, rfl, rfl, rfl, rfl, rfl, [.close, .crash], rfl, by decide⟩

/-- A channel in the epoll set has an owner, or a `connectDestroyed` that is to take it out. -/
structure Accounted (c : TCPConnection) : Prop where
  starting : c.state = .kConnecting → Starting c ∧ c.owned = true
  started : c.state ≠ .kConnecting → c.startup = [] ∧ .add ∉ c.frames ∧ .connectEstablished ∉ c.frames
  queue : ∀ f ∈ c.queue, Ordinary f
  registered : c.registered = true → c.owned = true ∨ .connectDestroyed ∈ c.queue ∨
    .connectDestroyed ∈ c.frames ∨ .cancel ∈ c.frames
  /-- On the base loop nothing of a removal is queued, and what is left of it is on the stack. -/
  base : c.owner = .serverBase → c.removals = 0 ∧ .connectDestroyed ∉ c.queue ∧
    (.connectDestroyed ∈ c.frames ∨ .cancel ∈ c.frames → c.owned = false)

theorem accounted_initial (owner : Owner) : Accounted (initial owner) := by
  refine ⟨fun _ => ⟨?_, rfl⟩, fun h => absurd rfl h, by simp [initial], fun _ => .inl rfl, ?_⟩
  · cases owner <;> exact ⟨by decide, by decide, by decide, rfl⟩
  · rintro rfl
    decide

/-- A step of the dispatch keeps the account, whatever it adds. -/
theorem Accounted.of_pushes {c c' : TCPConnection} (h : Accounted c) (hstate : c.state ≠ .kConnecting)
    (hp : Pushes c c') : Accounted c' := by
  obtain ⟨new, hframes, hnew⟩ := hp.frames
  have hmem : ∀ f, ¬ (Ordinary f ∧ f ≠ .connectDestroyed) → (f ∈ c'.frames ↔ f ∈ c.frames) := by
    intro f hf
    rw [hframes, List.mem_append, or_iff_right fun hf' => hf (hnew f hf')]
  have hadd := hmem .add (by decide)
  have hestablished := hmem .connectEstablished (by decide)
  have hdestroyed := hmem .connectDestroyed (by decide)
  have hcancel := hmem .cancel (by decide)
  refine ⟨fun hs => absurd (hp.state ▸ hs) hstate, fun _ => ?_, ?_, fun hr => ?_, fun ho => ?_⟩
  · -- What is new on the stack is none of the frames that the account speaks of.
    rw [hp.startup, hadd, hestablished]
    exact h.started hstate
  · rw [hp.queue]
    exact h.queue
  · rw [hp.owned, hp.queue, hdestroyed, hcancel]
    exact h.registered (hp.registered ▸ hr)
  · rw [hp.removals, hp.queue, hp.owned, hdestroyed, hcancel]
    exact h.base (hp.owner ▸ ho)

/-- Something ordinary is taken off the stack. -/
theorem Accounted.pop {c : TCPConnection} (h : Accounted c) (hstate : c.state ≠ .kConnecting)
    {frame : Frame} {frames : List Frame} (hf : c.frames = frame :: frames) (hcancel : frame ≠ .cancel)
    (hdestroy : frame ≠ .connectDestroyed) : Accounted { c with frames := frames } := by
  have htail : ∀ g, g ∈ frames → g ∈ c.frames := fun g hg => hf ▸ List.mem_cons_of_mem frame hg
  have hhead : ∀ g, g ≠ frame → g ∈ c.frames → g ∈ frames := fun g hne hg =>
    List.mem_of_ne_of_mem hne (hf ▸ hg)
  obtain ⟨hstartup, hadd, hestablished⟩ := h.started hstate
  refine ⟨fun hs => absurd hs hstate, fun _ => ?_, h.queue, fun hr => ?_, fun ho => ?_⟩
  · exact ⟨hstartup, fun hg => hadd (htail _ hg), fun hg => hestablished (htail _ hg)⟩
  · rcases h.registered hr with howned | hqueue | hdestroyed | hc
    · exact .inl howned
    · exact .inr (.inl hqueue)
    · exact .inr (.inr (.inl (hhead _ hdestroy.symm hdestroyed)))
    · exact .inr (.inr (.inr (hhead _ hcancel.symm hc)))
  · obtain ⟨hremovals, hqueue, hleft⟩ := h.base ho
    refine ⟨hremovals, hqueue, ?_⟩
    rintro (hd | hc)
    · exact hleft (.inl (htail _ hd))
    · exact hleft (.inr (htail _ hc))

/-- The owner does not have the connection any more. -/
theorem remove_eq (c : TCPConnection) :
    ∃ removed notRemoved, c.remove =
      { c with owned := false, removed := removed, notRemoved := notRemoved } := by
  unfold remove
  split_ifs with howned
  · exact ⟨_, _, rfl⟩
  · rw [Bool.not_eq_true] at howned
    exact ⟨c.removed, c.notRemoved + 1, by rw [← howned]⟩

/-- The owner lets go of the connection, and a `connectDestroyed` has it. -/
theorem Accounted.close {c : TCPConnection} (h : Accounted c) (hstate : c.state ≠ .kConnecting) :
    Accounted c.close := by
  have hbase := h.base
  unfold TCPConnection.close
  extract_lets c'
  obtain ⟨removed, notRemoved, hremove⟩ := c'.remove_eq
  have htask : Ordinary .connectDestroyed := by decide
  split
  case h_1 hclient =>
    -- A client queues the `connectDestroyed`.
    have howner : c.owner = .client := hclient
    rw [hremove]
    refine ⟨fun hs => absurd hs hstate, fun _ => h.started hstate, ?_, ?_, ?_⟩
    · exact List.forall_mem_cons.mpr ⟨htask, h.queue⟩
    · exact fun _ => .inr (.inl List.mem_cons_self)
    · intro ho
      exact absurd (howner.symm.trans ho) (by decide)
  case h_2 hserver =>
    -- The base loop runs it at once.
    have howner : c.owner = .serverBase := hserver
    obtain ⟨hstartup, hadd, hestablished⟩ := h.started hstate
    obtain ⟨hremovals, hqueue, -⟩ := h.base howner
    rw [hremove]
    refine ⟨fun hs => absurd hs hstate, fun _ => ⟨hstartup, ?_, ?_⟩, h.queue, ?_, ?_⟩
    · simpa [push] using hadd
    · simpa [push] using hestablished
    · exact fun _ => .inr (.inr (.inl List.mem_cons_self))
    · exact fun _ => ⟨hremovals, hqueue, fun _ => rfl⟩
  case h_3 hworker =>
    -- A worker loop queues the removal in the base loop; the map still has the connection.
    have howner : c.owner = .serverWorker := hworker
    refine ⟨fun hs => absurd hs hstate, fun _ => h.started hstate, h.queue, h.registered, ?_⟩
    intro ho
    exact absurd (howner.symm.trans ho) (by decide)

/-- On the base loop nothing has the connection any more but what is on the stack. -/
theorem Accounted.let_go {c : TCPConnection} (h : Accounted c)
    (hleft : .connectDestroyed ∈ c.frames ∨ .cancel ∈ c.frames) (ho : c.owner = .serverBase) :
    c.removals = 0 ∧ .connectDestroyed ∉ c.queue ∧ c.owned = false := by
  obtain ⟨hremovals, hqueue, howned⟩ := h.base ho
  exact ⟨hremovals, hqueue, howned hleft⟩

/-- A `connectDestroyed` comes to its `cancel`, with user callbacks in front of it. -/
theorem Accounted.to_cancel {c c' : TCPConnection} (h : Accounted c) {frames new : List Frame}
    (hf : c.frames = .connectDestroyed :: frames) (hstarted : c.state ≠ .kConnecting)
    (hstate : c'.state ≠ .kConnecting) (howner : c'.owner = c.owner) (howned : c'.owned = c.owned)
    (hremovals : c'.removals = c.removals) (hstartup : c'.startup = c.startup)
    (hqueue : c'.queue = c.queue) (hframes : c'.frames = new ++ .cancel :: frames)
    (hnew : ∀ f ∈ new, f = .user) : Accounted c' := by
  obtain ⟨hnone, hadd, hestablished⟩ := h.started hstarted
  -- Of a start-up there is nothing in what is left, and nothing in what is new.
  have hnot : ∀ f, f ≠ .user → f ≠ .cancel → f ∉ c.frames → f ∉ c'.frames := by
    intro f huser hcancel hmem
    rw [hf] at hmem
    rw [hframes, List.mem_append, List.mem_cons]
    rintro (hg | hg | hg)
    · exact huser (hnew f hg)
    · exact hcancel hg
    · exact hmem (List.mem_cons_of_mem _ hg)
  have hleft : .cancel ∈ c'.frames := by
    rw [hframes]
    exact List.mem_append_right new List.mem_cons_self
  refine ⟨fun hs => absurd hs hstate, fun _ => ⟨hstartup.trans hnone, ?_, ?_⟩, hqueue ▸ h.queue,
    fun _ => .inr (.inr (.inr hleft)), fun ho => ?_⟩
  · exact hnot .add (by decide) (by decide) hadd
  · exact hnot .connectEstablished (by decide) (by decide) hestablished
  · obtain ⟨hzero, hmem, hlet⟩ := h.let_go (.inl (hf ▸ List.mem_cons_self)) (howner ▸ ho)
    exact ⟨hremovals.trans hzero, hqueue ▸ hmem, fun _ => howned.trans hlet⟩

/-- `connectDestroyed` leaves the `cancel`. -/
theorem Accounted.connectDestroyed {c : TCPConnection} (h : Accounted c) (hstate : c.state ≠ .kConnecting)
    {frames : List Frame} (hf : c.frames = .connectDestroyed :: frames) :
    Accounted { c with frames := frames }.connectDestroyed := by
  have hdisconnected : StateE.kDisconnected ≠ .kConnecting := by decide
  have hcallback : ∀ f ∈ [Frame.user], f = .user := by simp
  unfold TCPConnection.connectDestroyed disableAll update push
  dsimp only
  -- `disableAll` stops the program where the channel is not in the epoll set.
  split_ifs with hcon hr
  · exact h.to_cancel hf hstate hdisconnected rfl rfl rfl rfl rfl rfl hcallback
  · exact h.to_cancel hf hstate hdisconnected rfl rfl rfl rfl rfl rfl hcallback
  · exact h.to_cancel hf hstate hstate rfl rfl rfl rfl rfl (List.nil_append _).symm nofun

/-- The `cancel` takes the channel out, or stops the program. -/
theorem Accounted.cancel {c : TCPConnection} (h : Accounted c) (hstate : c.state ≠ .kConnecting)
    {frames : List Frame} (hf : c.frames = .cancel :: frames) :
    Accounted { c with frames := frames }.cancel := by
  obtain ⟨hstartup, hadd, hestablished⟩ := h.started hstate
  rw [hf] at hadd hestablished
  have hbase := h.let_go (.inr (hf ▸ List.mem_cons_self))
  unfold TCPConnection.cancel ctlDel
  dsimp only
  split_ifs with hr <;>
    refine ⟨fun hs => absurd hs hstate, fun _ => ⟨hstartup, ?_, ?_⟩, h.queue, ?_, ?_⟩
  · exact fun hg => hadd (List.mem_cons_of_mem _ hg)
  · exact fun hg => hestablished (List.mem_cons_of_mem _ hg)
  · exact fun hs => nomatch hs
  · exact fun ho => ⟨(hbase ho).1, (hbase ho).2.1, fun _ => (hbase ho).2.2⟩
  · exact fun hg => hadd (List.mem_cons_of_mem _ hg)
  · exact fun hg => hestablished (List.mem_cons_of_mem _ hg)
  · exact fun hs => absurd hs hr
  · exact fun ho => ⟨(hbase ho).1, (hbase ho).2.1, fun _ => (hbase ho).2.2⟩

/-- The start-up. -/
theorem Accounted.run_starting {c : TCPConnection} (h : Accounted c) (hs : c.state = .kConnecting)
    (io : IoResult) {frame : Frame} {frames : List Frame} (hf : c.frames = frame :: frames) :
    Accounted ({ c with frames := frames }.runFrame io frame) := by
  obtain ⟨hphase, howned⟩ := h.starting hs
  have hstart := hphase.frames
  rw [hf] at hstart
  -- A start-up adds the channel, and then establishes the connection.
  by_cases hr : c.registered = true
  case neg =>
    rw [if_neg hr, List.cons_append, List.cons.injEq] at hstart
    obtain ⟨rfl, hrest⟩ := hstart
    have howner : c.owner ≠ .client := fun ho => hr (hphase.client ho).1
    have hadd : ({ c with frames := frames }.runFrame io .add) =
        { c with frames := frames, registered := true } := by
      rw [runFrame, add, if_neg hr]
    rw [hadd]
    refine ⟨fun _ => ⟨⟨hrest, fun ho => absurd ho howner, hphase.queue, hphase.removals⟩, howned⟩,
      fun hne => absurd hs hne, h.queue, fun _ => .inl howned, fun ho => ?_⟩
    obtain ⟨hremovals, hqueue, hleft⟩ := h.base ho
    refine ⟨hremovals, hqueue, fun hg => hleft ?_⟩
    rw [hf]
    exact hg.imp (List.mem_cons_of_mem _) (List.mem_cons_of_mem _)
  case pos =>
    rw [if_pos hr, List.cons_append, List.cons.injEq] at hstart
    obtain ⟨rfl, hrest⟩ := hstart
    obtain ⟨rfl, hstartup⟩ := List.append_eq_nil_iff.mp hrest
    have hestablished : ({ c with frames := [] }.runFrame io .connectEstablished) =
        { c with frames := [.user], state := .kConnected, reading := true } := by
      simp only [runFrame, TCPConnection.connectEstablished, enableReading, update, push, hr, if_true]
    rw [hestablished]
    have hconnected : StateE.kConnected ≠ .kConnecting := by decide
    refine ⟨fun hg => absurd hg hconnected, fun _ => ⟨hstartup, by simp, by simp⟩, h.queue,
      fun _ => .inl howned, fun ho => ?_⟩
    obtain ⟨hremovals, hqueue, -⟩ := h.base ho
    exact ⟨hremovals, hqueue, by simp⟩

/-- A task of the users is queued. -/
theorem Accounted.queueTask {c : TCPConnection} (h : Accounted c)
    (hq : c.owner = .client ∨ c.state ≠ .kConnecting) {frame : Frame} (hframe : Ordinary frame)
    (hdestroy : frame ≠ .connectDestroyed) : Accounted (c.queueTask frame) := by
  refine ⟨fun hs => ?_, h.started, List.forall_mem_cons.mpr ⟨hframe, h.queue⟩, fun hr => ?_, fun ho => ?_⟩
  · obtain ⟨hphase, howned⟩ := h.starting hs
    have hpushed := hq.resolve_right (not_not_intro hs)
    exact ⟨⟨hphase.frames, hphase.client, .inl hpushed, hphase.removals⟩, howned⟩
  · exact (h.registered hr).imp_right (.imp_left (List.mem_cons_of_mem frame))
  · obtain ⟨hremovals, hqueue, hleft⟩ := h.base ho
    exact ⟨hremovals, List.not_mem_cons_of_ne_of_not_mem hdestroy.symm hqueue, hleft⟩

/-- The loop runs a queued task. -/
theorem Accounted.task {c : TCPConnection} (h : Accounted c) {frame : Frame} (hf : c.frames = [])
    (hq : frame ∈ c.queue) : Accounted ({ c with queue := c.queue.erase frame }.push frame) := by
  have hframe := h.queue frame hq
  refine ⟨fun hs => ?_, fun hs => ⟨(h.started hs).1, ?_, ?_⟩, ?_, fun hr => ?_, fun ho => ?_⟩
  · -- Before `connectEstablished` only the queue of a client is not empty, and there the stack is not.
    rcases (h.starting hs).1.queue with ho | hnil
    · exact absurd hf ((h.starting hs).1.client ho).2
    · rw [hnil] at hq
      cases hq
  · simpa [push, hf] using hframe.1.symm
  · simpa [push, hf] using hframe.2.1.symm
  · exact fun g hg => h.queue g (List.mem_of_mem_erase hg)
  · rcases h.registered hr with howned | hqueue | hdestroyed | hcancel
    · exact .inl howned
    · by_cases hd : frame = .connectDestroyed
      · exact .inr (.inr (.inl (hd ▸ List.mem_cons_self)))
      · exact .inr (.inl ((List.mem_erase_of_ne (Ne.symm hd)).mpr hqueue))
    · rw [hf] at hdestroyed
      cases hdestroyed
    · rw [hf] at hcancel
      cases hcancel
  · obtain ⟨hremovals, hqueue, -⟩ := h.base ho
    refine ⟨hremovals, fun hd => hqueue (List.mem_of_mem_erase hd), ?_⟩
    have hd : frame ≠ .connectDestroyed := fun hd => hqueue (hd ▸ hq)
    simp [push, hf, hd.symm, hframe.2.2.symm]

/-- The base loop runs a queued removal, and a `connectDestroyed` has the connection. -/
theorem Accounted.removal {c : TCPConnection} (h : Accounted c) (hq : 0 < c.removals) :
    Accounted ({ c with removals := c.removals - 1 }.remove.queueTask .connectDestroyed) := by
  obtain ⟨removed, notRemoved, hremove⟩ := { c with removals := c.removals - 1 }.remove_eq
  have hstate : c.state ≠ .kConnecting := fun hs => by
    have hzero := (h.starting hs).1.removals
    omega
  rw [hremove]
  refine ⟨fun hs => absurd hs hstate, fun _ => h.started hstate, ?_, fun _ => ?_, fun ho => ?_⟩
  · exact List.forall_mem_cons.mpr ⟨by decide, h.queue⟩
  · exact .inr (.inl List.mem_cons_self)
  · have hzero := (h.base ho).1
    omega

/-- What the loop thread does next. -/
theorem Accounted.run {c : TCPConnection} (h : Accounted c) (io : IoResult) {frame : Frame}
    {frames : List Frame} (hf : c.frames = frame :: frames) :
    Accounted ({ c with frames := frames }.runFrame io frame) := by
  by_cases hs : c.state = .kConnecting
  case pos => exact h.run_starting hs io hf
  case neg =>
    obtain ⟨-, hadd, hestablished⟩ := h.started hs
    rw [hf] at hadd hestablished
    by_cases hdestroy : frame = .connectDestroyed
    · subst hdestroy
      exact h.connectDestroyed hs hf
    by_cases hcancel : frame = .cancel
    · subst hcancel
      exact h.cancel hs hf
    have hpop := h.pop hs hf hcancel hdestroy
    by_cases hclose : frame = .close
    · subst hclose
      exact hpop.close hs
    have hframe : Ordinary frame :=
      ⟨fun hg => hadd (hg ▸ List.mem_cons_self), fun hg => hestablished (hg ▸ List.mem_cons_self), hcancel⟩
    exact hpop.of_pushes hs (pushes_runFrame _ io hframe hclose hdestroy)

/-- The account is kept by every step. -/
theorem Accounted.step {c c' : TCPConnection} {op : Op} (h : Accounted c) (hs : Stepped c op c') :
    Accounted c' := by
  have hclose : Ordinary .close := by decide
  have hsend : Ordinary .send := by decide
  have hcalled : c.frames.head? = some .user → c.state ≠ .kConnecting := fun hf hc => by
    rcases (h.starting hc).1.head hf with hg | hg <;> cases hg
  cases hs with
  | run io frame frames hf => exact h.run io hf
  | startup frame startup hf hstart =>
    have hc : c.state = .kConnecting := by
      by_contra hc
      rw [(h.started hc).1] at hstart
      cases hstart
    obtain ⟨hphase, howned⟩ := h.starting hc
    have hframes := hphase.frames
    rw [hf, hstart] at hframes
    have hstarts : frame = .add ∨ frame = .connectEstablished := by
      split_ifs at hframes
      · exact .inr (List.cons.inj hframes).1
      · exact .inl (List.cons.inj hframes).1
    refine ⟨fun _ => ⟨⟨?_, fun ho => absurd hf (hphase.client ho).2, hphase.queue, hphase.removals⟩, howned⟩,
      fun hne => absurd hc hne, h.queue, fun _ => .inl howned, fun ho => ?_⟩
    · show frame :: (c.frames ++ startup) = _
      rw [hf]
      exact hframes
    · obtain ⟨hremovals, hqueue, -⟩ := h.base ho
      refine ⟨hremovals, hqueue, ?_⟩
      rcases hstarts with rfl | rfl <;> simp [push, hf]
  | task frame hf hq => exact h.task hf hq
  | event revent hf hr hcon =>
    have hlast : Accounted (c.push (.lastCall (Reactor.callsWrite revent))) :=
      h.of_pushes hcon (pushes_push c (by simp [Ordinary]))
    exact hlast.of_pushes hcon (pushes_push _ (by simp [Ordinary]))
  | userSend hf => exact h.of_pushes (hcalled hf) (pushes_push c (by decide))
  | userClose hf => exact h.queueTask (.inr (hcalled hf)) hclose (by decide)
  | otherSend hcon => exact h.queueTask (.inr hcon) hsend (by decide)
  | otherClose hcon => exact h.queueTask (.inr hcon) hclose (by decide)
  | disconnect ho => exact h.queueTask (.inl ho) hclose (by decide)
  | removal hq => exact h.removal hq

/-- What the loop thread does not undo: the connection stays where it is, it is not established anew, and
an owner that has let go of it does not get it back. -/
structure Keeps (c c' : TCPConnection) : Prop where
  owner : c'.owner = c.owner
  state : c.state ≠ .kConnecting → c'.state ≠ .kConnecting
  owned : c.owned = false → c'.owned = false

theorem keeps_runFrame (c : TCPConnection) (io : IoResult) (frame : Frame) :
    Keeps c (c.runFrame io frame) := by
  cases frame with
  | firstCall call => rcases call with _ | _ | _ | _ <;> cases io <;> exact ⟨rfl, id, id⟩
  | lastCall writes => cases writes <;> cases io <;> exact ⟨rfl, id, id⟩
  | user | crash => exact ⟨rfl, id, id⟩
  | add =>
    simp only [runFrame, add]
    split_ifs <;> exact ⟨rfl, id, id⟩
  | connectEstablished =>
    simp only [runFrame, TCPConnection.connectEstablished, enableReading, update]
    have hconnected : StateE.kConnected ≠ .kConnecting := by decide
    split_ifs <;> exact ⟨rfl, fun _ => hconnected, id⟩
  | connectDestroyed =>
    simp only [runFrame, TCPConnection.connectDestroyed, disableAll, update]
    have hdisconnected : StateE.kDisconnected ≠ .kConnecting := by decide
    split_ifs
    · exact ⟨rfl, fun _ => hdisconnected, id⟩
    · exact ⟨rfl, fun _ => hdisconnected, id⟩
    · exact ⟨rfl, id, id⟩
  | cancel =>
    simp only [runFrame, TCPConnection.cancel, ctlDel]
    split_ifs <;> exact ⟨rfl, id, id⟩
  | send =>
    simp only [runFrame, send, enableWriting, update]
    split_ifs <;> exact ⟨rfl, id, id⟩
  | close =>
    simp only [runFrame, TCPConnection.close]
    -- Whoever is asked to remove the connection does not have it afterwards.
    obtain ⟨removed, notRemoved, hremove⟩ := { c with closed := c.closed + 1 }.remove_eq
    rw [hremove]
    split
    · exact ⟨rfl, id, fun _ => rfl⟩
    · exact ⟨rfl, id, fun _ => rfl⟩
    · exact ⟨rfl, id, id⟩

/-- Only the `cancel` takes the channel out of the epoll set. -/
theorem runFrame_registered {c : TCPConnection} (hr : c.registered = true) (io : IoResult) {frame : Frame}
    (hcancel : frame ≠ .cancel) : (c.runFrame io frame).registered = true := by
  cases frame with
  | cancel => exact absurd rfl hcancel
  | firstCall call => rcases call with _ | _ | _ | _ <;> cases io <;> exact hr
  | lastCall writes => cases writes <;> cases io <;> exact hr
  | user | crash => exact hr
  | add => simp [runFrame, add, hr]
  | connectEstablished => simp [runFrame, TCPConnection.connectEstablished, enableReading, update, push, hr]
  | connectDestroyed =>
    simp only [runFrame, TCPConnection.connectDestroyed, disableAll, update, push]
    split_ifs <;> exact hr
  | send =>
    simp only [runFrame, send, enableWriting, update]
    split_ifs <;> exact hr
  | close =>
    simp only [runFrame, TCPConnection.close]
    obtain ⟨removed, notRemoved, hremove⟩ := { c with closed := c.closed + 1 }.remove_eq
    rw [hremove]
    split <;> exact hr

/-- It does so, or stops the program. -/
theorem cancel_of_registered {c : TCPConnection} (hr : c.registered = true) :
    c.cancel.registered = false ∧ c.cancel.stopped = c.stopped ∧ c.cancel.frames = c.frames := by
  simp [TCPConnection.cancel, ctlDel, hr]

theorem cancel_of_not_registered {c : TCPConnection} (hr : c.registered = false) :
    c.cancel.stopped = true := by
  simp [TCPConnection.cancel, ctlDel, hr]

/-- On the base loop a close runs `connectDestroyed` at once. -/
theorem close_frames {c : TCPConnection} (ho : c.owner = .serverBase) :
    c.close.frames = .connectDestroyed :: c.frames := by
  obtain ⟨removed, notRemoved, hremove⟩ := { c with closed := c.closed + 1 }.remove_eq
  unfold TCPConnection.close
  extract_lets c'
  simp only [c', ho]
  rw [ho] at hremove
  rw [hremove]
  rfl

/-- `connectDestroyed` on a channel that is not in the epoll set stops the program, or has only its
`cancel` left. -/
theorem connectDestroyed_frames (c : TCPConnection) :
    c.connectDestroyed.frames = .user :: .cancel :: c.frames ∧
        (c.registered = false → c.connectDestroyed.stopped = true) ∨
      c.connectDestroyed.frames = .cancel :: c.frames := by
  unfold TCPConnection.connectDestroyed disableAll update push
  dsimp only
  split_ifs with hcon hr
  · exact .inl ⟨rfl, fun hr' => absurd hr (by simp [hr'])⟩
  · exact .inl ⟨rfl, fun _ => rfl⟩
  · exact .inr rfl

end TCPConnection

end Hulatang
