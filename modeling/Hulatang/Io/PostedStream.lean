import Mathlib.Order.Basic
import Hulatang.Lib.Machine
import Hulatang.Lib.Pipe
import Hulatang.Io.WSProactor

/-!
# The outgoing byte stream on Windows

`send` posts nothing itself: it sets `kWriteEvent`, and the change of the flag posts a `WRITE` if there is
something to send. So the stream goes out as long as no `send` of at least one byte finds the flag set
with no `WRITE` outstanding (`Prompted`), as it does after an empty `send` on an idle connection.
`posted_iff_prompted` says that this condition is exact. In the runs that meet it the connection refines a
`Pipe`, whose deliveries are the completed `WRITE`s, and what has been posted is what has been delivered
and the region of the outstanding `WRITE`.
-/

namespace Hulatang.WSProactor

/-- The lengths of the outstanding `WRITE`s. -/
def writes (s : WSProactor) : List ℕ := s.overs.filterMap Over.writeLen

/-- At most one `WRITE` is outstanding, and one as long as something is to be sent; it does not reach
beyond the readable bytes; what has been posted was sent first. -/
structure Posted (s : WSProactor) : Prop where
  one : s.writes.length ≤ 1
  outstanding : s.sendBuffer.toStringView ≠ [] → s.writes ≠ []
  fits : ∀ len ∈ s.writes, len ≤ s.sendBuffer.readableBytes
  posted : s.posted <+: s.sent.map some
  asserted : s.fault ≠ some .assertion
  nested : s.nested = false

/-- A `send` of at least one byte finds `kWriteEvent` reset, or a `WRITE` outstanding. -/
def Prompted (s : WSProactor) : Op → Prop
  | .send buf _ => buf.buf ≠ [] → s.writing = true → s.writes ≠ []
  | _ => True

instance (s : WSProactor) : DecidablePred s.Prompted
  | .send buf _ => inferInstanceAs (Decidable (buf.buf ≠ [] → s.writing = true → s.writes ≠ []))
  | .completion _ _ | .messageReturn => inferInstanceAs (Decidable True)

/-- The connection has the bytes of the pipe, and no handler runs. -/
structure Carries (s : WSProactor) (p : Pipe UInt8) : Prop where
  wellFormed : s.sendBuffer.WellFormed
  accepted : s.sent = p.accepted
  queued : s.sendBuffer.toStringView = p.queued.map some
  rovers : s.rovers = []
  asserted : s.fault ≠ some .assertion
  nested : s.nested = false

/-- No `WRITE` is outstanding, and nothing is queued. -/
structure Idle (s : WSProactor) (p : Pipe UInt8) : Prop where
  writes : s.writes = []
  posted : s.posted = p.delivered.map some
  queued : p.queued = []

/-- A `WRITE` of the first queued bytes is outstanding. -/
structure Busy (s : WSProactor) (p : Pipe UInt8) (len : ℕ) : Prop where
  writes : s.writes = [len]
  posted : s.posted = (p.delivered ++ p.queued.take len).map some
  writing : s.writing = true
  fits : len ≤ p.queued.length

/-- The invariant of the runs that meet the condition. -/
structure Sending (s : WSProactor) (p : Pipe UInt8) : Prop where
  carries : Carries s p
  phase : Idle s p ∨ ∃ len, Busy s p len

variable {s : WSProactor} {p : Pipe UInt8}

theorem Carries.readableBytes_eq (h : Carries s p) :
    s.sendBuffer.readableBytes = p.queued.length := by
  rw [← h.wellFormed.length_toStringView, h.queued, List.length_map]

theorem sending_initial (begin : ℕ) : Sending (initial begin) .empty := by
  have hwf : (Buffer.ofSize Buffer.kInitialSize).WellFormed :=
    Buffer.wellFormed_ofSize (by decide)
  exact ⟨⟨hwf, rfl, Buffer.toStringView_ofSize, rfl, (fun h => nomatch h), rfl⟩, .inl ⟨rfl, rfl, rfl⟩⟩

theorem Sending.posted (h : Sending s p) : Posted s := by
  have hreadable := h.carries.readableBytes_eq
  have hsent : s.sent = p.accepted := h.carries.accepted
  rcases h.phase with hidle | ⟨len, hbusy⟩
  · have hview : s.sendBuffer.toStringView = [] := by
      rw [h.carries.queued, hidle.queued]
      rfl
    refine ⟨?_, fun hne => absurd hview hne, ?_, ?_, h.carries.asserted, h.carries.nested⟩
    · rw [hidle.writes]
      exact Nat.zero_le _
    · rw [hidle.writes]
      intro len hmem
      cases hmem
    · rw [hidle.posted, hsent]
      exact p.delivered_prefix_accepted.map some
  · refine ⟨?_, fun _ => ?_, ?_, ?_, h.carries.asserted, h.carries.nested⟩
    · rw [hbusy.writes]
      exact Nat.le_refl _
    · rw [hbusy.writes]
      exact List.cons_ne_nil _ _
    · rw [hbusy.writes, hreadable]
      intro n hmem
      obtain rfl : n = len := List.mem_singleton.mp hmem
      exact hbusy.fits
    · rw [hbusy.posted, hsent]
      exact (p.pending_prefix_accepted len).map some

/-! ## The lists of operations -/

/-- A completed `WRITE` was one of those outstanding; nothing else is taken off. -/
theorem writes_eraseIdx {o : Over} {k : ℕ} (hk : s.overs[k]? = some o) :
    ∃ before rest, s.writes = before ++ o.writeLen.toList ++ rest ∧
      (s.overs.eraseIdx k).filterMap Over.writeLen = before ++ rest := by
  obtain ⟨hlt, hget⟩ := List.getElem?_eq_some_iff.mp hk
  have hsplit : s.overs = s.overs.take k ++ o :: s.overs.drop (k + 1) := by
    rw [← hget, List.cons_getElem_drop_succ, List.take_append_drop]
  refine ⟨(s.overs.take k).filterMap Over.writeLen, (s.overs.drop (k + 1)).filterMap Over.writeLen, ?_, ?_⟩
  · show s.overs.filterMap Over.writeLen = _
    nth_rewrite 1 [hsplit]
    rw [List.filterMap_append, List.append_assoc]
    cases o <;> rfl
  · rw [List.eraseIdx_eq_take_drop_succ, List.filterMap_append]

/-- With no `WRITE` outstanding, the scan of `updatePost` finds none. -/
theorem any_isWriteAt_eq_false (s : WSProactor) (h : s.writes = []) (address : ℕ) :
    s.overs.any (isWriteAt address) = false := by
  refine List.any_eq_false.mpr fun o hmem hat => ?_
  have hnone : o.writeLen = none := List.filterMap_eq_nil_iff.mp h o hmem
  cases o with
  | write data len => cases hnone
  | none | read | update => cases hat

/-- What a change of the flags does where `rover` is empty. -/
theorem update_eq (s : WSProactor) (h : s.rovers = []) : s.update = s.updatePost := by
  have hs : { s with rovers := [] } = s := by rw [← h]
  unfold update handleEvent
  rw [h]
  show { s with rovers := [] }.updatePost = _
  rw [hs]

theorem enableWriting_eq (h : s.rovers = []) : s.enableWriting = { s with writing := true }.updatePost :=
  update_eq { s with writing := true } h

/-- `updatePost` posts nothing once `kWriteEvent` is reset. -/
theorem disableWriting_eq (h : s.rovers = []) : s.disableWriting = { s with writing := false } :=
  update_eq { s with writing := false } h

/-- `process` calls the handler of the completed operation, likewise. -/
theorem process_eq (h : s.rovers = []) (k : ℕ) (o : Over) :
    s.process k o = { s with overs := s.overs.eraseIdx k }.handle o := by
  unfold process handleEvent
  rw [h]
  show { s with overs := s.overs.eraseIdx k, rovers := [] }.handle o = _
  rw [← h]

/-! ## What posts and completes -/

/-- `postSend` of what is queued, with no other `WRITE` outstanding. -/
theorem Carries.postSend (h : Carries s p) (hwrites : s.writes = [])
    (hposted : s.posted = p.delivered.map some) (hwriting : s.writing = true)
    (hqueued : p.queued ≠ []) : Sending s.postSend p := by
  have hreadable := h.readableBytes_eq
  have hpos : 0 < s.sendBuffer.readableBytes := by
    rw [hreadable]
    exact List.length_pos_iff.mpr hqueued
  -- The length is a `DWORD`: a longer region is posted in part.
  have hfits : s.sendBuffer.readableBytes % 2^32 ≤ p.queued.length := by
    rw [hreadable]
    exact Nat.mod_le _ _
  unfold WSProactor.postSend
  rw [if_pos hpos]
  refine ⟨⟨h.wellFormed, h.accepted, h.queued, h.rovers, h.asserted, h.nested⟩,
    .inr ⟨_, ?_, ?_, hwriting, hfits⟩⟩
  · show (s.overs ++ _).filterMap Over.writeLen = _
    rw [List.filterMap_append]
    show s.writes ++ _ = _
    rw [hwrites]
    rfl
  · show s.posted ++ s.sendBuffer.toStringView.take _ = _
    rw [hposted, h.queued, List.map_append, List.map_take]

/-- Setting `kWriteEvent` on a connection with no `WRITE` outstanding posts what is queued. -/
theorem Carries.enableWriting (h : Carries s p) (hwrites : s.writes = [])
    (hposted : s.posted = p.delivered.map some) : ∃ p', Sending s.enableWriting p' := by
  have hcarries : Carries { s with writing := true } p :=
    ⟨h.wellFormed, h.accepted, h.queued, h.rovers, h.asserted, h.nested⟩
  refine ⟨p, ?_⟩
  rw [enableWriting_eq h.rovers]
  unfold updatePost
  rw [if_pos rfl]
  by_cases hempty : p.queued = []
  · rw [if_pos (by rw [hcarries.readableBytes_eq, hempty]; rfl)]
    exact ⟨hcarries, .inl ⟨hwrites, hposted, hempty⟩⟩
  · have hsize : s.sendBuffer.readableBytes ≠ 0 := by
      rw [h.readableBytes_eq]
      exact fun hzero => hempty (List.length_eq_zero_iff.mp hzero)
    have hscan := any_isWriteAt_eq_false { s with writing := true } hwrites
    rw [if_neg hsize, if_neg (by rw [hscan]; exact Bool.false_ne_true)]
    exact hcarries.postSend hwrites hposted rfl hempty

/-- An append is a push. -/
theorem Carries.append (h : Carries s p) (buf : Buf) (begin : ℕ) {sendBuffer : Buffer}
    (happend : s.sendBuffer.append buf.buf = .ok sendBuffer) :
    Carries { s with sendBuffer := sendBuffer, begin := begin, sent := s.sent ++ buf.buf }
      (p.push buf.buf) := by
  obtain ⟨hwf, hview⟩ := h.wellFormed.appended buf.len_le happend
  refine ⟨hwf, ?_, ?_, h.rovers, h.asserted, h.nested⟩
  · show s.sent ++ buf.buf = p.accepted ++ buf.buf
    rw [h.accepted]
  · show sendBuffer.toStringView = (p.queued ++ buf.buf).map some
    rw [hview, h.queued, List.map_append]

/-- A prompted `send`. -/
theorem Sending.send (h : Sending s p) {buf : Buf} {begin : ℕ} (hg : s.Prompted (.send buf begin))
    {sendBuffer : Buffer} (happend : s.sendBuffer.append buf.buf = .ok sendBuffer) :
    ∃ p', Sending (s.send buf begin) p' := by
  have hcarries := h.carries.append buf begin happend
  unfold WSProactor.send
  rw [happend]
  dsimp only
  rcases h.phase with hidle | ⟨len, hbusy⟩
  · split_ifs with hw
    · -- The flag is set and nothing is outstanding, so nothing has been sent.
      have hempty : buf.buf = [] := by
        by_contra hne
        exact hg hne hw hidle.writes
      refine ⟨p.push buf.buf, hcarries, .inl ⟨hidle.writes, hidle.posted, ?_⟩⟩
      show p.queued ++ buf.buf = []
      rw [hidle.queued, hempty]
      rfl
    · exact hcarries.enableWriting hidle.writes hidle.posted
  · -- The outstanding `WRITE` keeps its region, behind which the data is appended.
    rw [if_pos hbusy.writing]
    refine ⟨p.push buf.buf, hcarries, .inr ⟨len, hbusy.writes, ?_, hbusy.writing, ?_⟩⟩
    · show s.posted = (p.delivered ++ (p.queued ++ buf.buf).take len).map some
      rw [hbusy.posted, List.take_append_of_le_length hbusy.fits]
    · show len ≤ (p.queued ++ buf.buf).length
      rw [List.length_append]
      exact Nat.le_add_right_of_le hbusy.fits

/-- An unprompted one leaves its bytes with no `WRITE` outstanding. -/
theorem Sending.not_posted_of_unprompted (h : Sending s p) {buf : Buf} {begin : ℕ}
    (hg : ¬ s.Prompted (.send buf begin)) {sendBuffer : Buffer}
    (happend : s.sendBuffer.append buf.buf = .ok sendBuffer) : ¬ Posted (s.send buf begin) := by
  have hne : buf.buf ≠ [] := fun hempty => hg fun hne => absurd hempty hne
  have hwriting : s.writing = true := by
    by_contra hw
    exact hg fun _ hw' => absurd hw' hw
  have hwrites : s.writes = [] := by
    by_contra hw
    exact hg fun _ _ => hw
  have hcarries := h.carries.append buf begin happend
  intro hposted
  unfold WSProactor.send at hposted
  rw [happend] at hposted
  dsimp only at hposted
  rw [if_pos hwriting] at hposted
  refine hposted.outstanding ?_ hwrites
  rw [hcarries.queued]
  show (p.queued ++ buf.buf).map some ≠ []
  simp [hne]

/-- The completion of the outstanding `WRITE` is a delivery of its region. -/
theorem Busy.handleWrite {len : ℕ} (hbusy : Busy s p len) (h : Carries s p) {overs : List Over}
    (hover : overs.filterMap Over.writeLen = []) :
    Sending ({ s with overs := overs }.handleWrite len) (p.pop len) := by
  have hfits : len ≤ s.sendBuffer.readableBytes := by
    rw [h.readableBytes_eq]
    exact hbusy.fits
  obtain ⟨sendBuffer, hretrieve, hwf, hview⟩ := h.wellFormed.retrieve hfits
  have hcarries : Carries { s with overs := overs, sendBuffer := sendBuffer } (p.pop len) := by
    refine ⟨hwf, h.accepted, ?_, h.rovers, h.asserted, h.nested⟩
    show sendBuffer.toStringView = (p.queued.drop len).map some
    rw [hview, h.queued, List.map_drop]
  unfold WSProactor.handleWrite
  dsimp only
  rw [hretrieve]
  dsimp only
  -- What has been appended in the meantime is posted; otherwise the flag is reset.
  by_cases hrest : 0 < sendBuffer.readableBytes
  · rw [if_pos hrest]
    refine hcarries.postSend hover hbusy.posted hbusy.writing fun hnil => ?_
    have hreadable := hcarries.readableBytes_eq
    rw [hnil] at hreadable
    exact absurd hreadable (Nat.ne_of_gt hrest)
  · rw [if_neg hrest]
    have hnil : (p.pop len).queued = [] := by
      refine List.length_eq_zero_iff.mp ?_
      rw [← hcarries.readableBytes_eq]
      exact Nat.eq_zero_of_not_pos hrest
    rw [disableWriting_eq hcarries.rovers]
    exact ⟨⟨hcarries.wellFormed, hcarries.accepted, hcarries.queued, h.rovers, h.asserted, h.nested⟩,
      .inl ⟨hover, hbusy.posted, hnil⟩⟩

/-- What changes neither the bytes nor the outstanding `WRITE`s. -/
theorem Sending.of_writes_eq (h : Sending s p) {overs : List Over} (receiving : Bool)
    (hover : overs.filterMap Over.writeLen = s.writes) :
    Sending { s with overs := overs, receiving := receiving } p := by
  have hc := h.carries
  refine ⟨⟨hc.wellFormed, hc.accepted, hc.queued, hc.rovers, hc.asserted, hc.nested⟩, ?_⟩
  rcases h.phase with hidle | ⟨len, hbusy⟩
  · exact .inl ⟨hover.trans hidle.writes, hidle.posted, hidle.queued⟩
  · exact .inr ⟨len, hover.trans hbusy.writes, hbusy.posted, hbusy.writing, hbusy.fits⟩

/-- Every completion keeps the invariant. -/
theorem Sending.process (h : Sending s p) {k bytes : ℕ} {o : Over} (hk : s.overs[k]? = some o)
    (hbytes : completes bytes o = true) : ∃ p', Sending (s.process k o) p' := by
  obtain ⟨before, rest, hwrites, hrest⟩ := writes_eraseIdx hk
  rw [process_eq h.carries.rovers]
  cases o with
  | none | update => cases hbytes
  | read =>
    refine ⟨p, h.of_writes_eq true ?_⟩
    rw [hrest, hwrites]
    simp [Over.writeLen]
  | write data len =>
    rcases h.phase with hidle | ⟨n, hbusy⟩
    · rw [hidle.writes] at hwrites
      simp [Over.writeLen] at hwrites
    · -- It is the only one.
      rw [hbusy.writes] at hwrites
      have hsingle : before = [] ∧ n = len ∧ rest = [] := by
        have hwrites' : [n] = before ++ len :: rest := by simpa [Over.writeLen] using hwrites
        obtain ⟨hbefore, hrest'⟩ | ⟨as, hbefore, has⟩ := List.cons_eq_append_iff.mp hwrites'
        · obtain ⟨hlen, hnil⟩ := List.cons.inj hrest'
          exact ⟨hbefore, hlen.symm, hnil⟩
        · exact absurd has.symm (by simp)
      obtain ⟨rfl, rfl, rfl⟩ := hsingle
      exact ⟨p.pop n, hbusy.handleWrite h.carries hrest⟩

/-- A step from a state with the invariant reaches a state with the property exactly when it is prompted,
and keeps the invariant if it is. -/
theorem Sending.step {t : WSProactor} {op : Op} (h : Sending s p) (hs : s.step op = some t) :
    (Posted t ↔ s.Prompted op) ∧ (s.Prompted op → ∃ p', Sending t p') := by
  have hcore : (s.Prompted op → ∃ p', Sending t p') ∧ (¬ s.Prompted op → ¬ Posted t) := by
    unfold WSProactor.step at hs
    by_cases hfault : s.fault = none
    case neg =>
      rw [if_neg hfault] at hs
      cases hs
    rw [if_pos hfault] at hs
    cases op with
    | send buf begin =>
      dsimp only at hs
      split_ifs at hs with hthrown
      cases hs
      rcases h.carries.wellFormed.append buf.len_le with ⟨sendBuffer, happend, -⟩ | ⟨herror, -⟩
      · exact ⟨fun hg => h.send hg happend, fun hg => h.not_posted_of_unprompted hg happend⟩
      · refine absurd ?_ hthrown
        unfold WSProactor.send
        rw [herror]
    | completion k bytes =>
      dsimp only at hs
      split at hs
      · rename_i o hk
        split_ifs at hs with hdone
        cases hs
        exact ⟨fun _ => h.process hk hdone.2, fun hg => absurd trivial hg⟩
      · cases hs
    | messageReturn =>
      dsimp only at hs
      split_ifs at hs with hreceiving
      cases hs
      refine ⟨fun _ => ⟨p, h.of_writes_eq false ?_⟩, fun hg => absurd trivial hg⟩
      rw [List.filterMap_append]
      exact List.append_nil _
  refine ⟨⟨fun hposted => ?_, fun hg => ?_⟩, hcore.1⟩
  · by_contra hg
    exact hcore.2 hg hposted
  · obtain ⟨p', hp'⟩ := hcore.1 hg
    exact hp'.posted

/-- The outgoing byte stream is posted in order and in time over a run exactly when each of its sends of
at least one byte is prompted. -/
theorem posted_iff_prompted (begin : ℕ) (ops : List Op) :
    Machine.Always step Posted (initial begin) ops ↔ Machine.Meets step Prompted (initial begin) ops := by
  have hposted : ∀ s, (∃ p, Sending s p) → Posted s := fun s ⟨p, h⟩ => h.posted
  have hstep : ∀ s op t, (∃ p, Sending s p) → True → step s op = some t →
      (Posted t ↔ s.Prompted op) ∧ (s.Prompted op → ∃ p, Sending t p) :=
    fun s op t ⟨p, h⟩ _ hs => h.step hs
  exact Machine.always_iff_meets hposted hstep ⟨.empty, sending_initial begin⟩
    (Machine.meets_of_labels fun _ _ => trivial)

/-- An empty `send` on an idle connection sets `kWriteEvent` and posts nothing; the next `send` finds the
flag set, and its byte stays. -/
theorem stranded_after_empty_send :
    ¬ ∀ (begin : ℕ) (ops : List Op), Machine.Always step Posted (initial begin) ops := by
  intro h
  have hrun := h 0 [.send ⟨[], by decide⟩ 0, .send ⟨[1], by decide⟩ 0]
  have hends : (Machine.run step (initial 0)
      [.send ⟨[], by decide⟩ 0, .send ⟨[1], by decide⟩ 0]).map
        (fun t => (t.sendBuffer.toStringView, t.writes)) = some ([some 1], []) := by
    decide +kernel
  obtain ⟨t, ht, hlast⟩ := Option.map_eq_some_iff.mp hends
  obtain ⟨hview, hwrites⟩ := Prod.mk.inj hlast
  refine (hrun.of_run ht).outstanding ?_ hwrites
  rw [hview]
  exact List.cons_ne_nil _ _

end Hulatang.WSProactor
