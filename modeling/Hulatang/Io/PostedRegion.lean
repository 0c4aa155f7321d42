import Mathlib.Data.List.Forall2
import Hulatang.Base.Placement
import Hulatang.Io.PostedStream

/-!
# The region of an outstanding `WRITE`

While a `WRITE` is outstanding, the system reads the region that it was posted with. Here the storage of
`sendBuffer`'s vector is explicit: `buffer_.resize` beyond the capacity moves the vector to new storage,
which the allocator chooses, and `makeSpace` may move the bytes within the old one. The region is stable
over a run exactly when every `send` that finds a `WRITE` outstanding has room behind the writer index,
or grows the vector within its capacity (`InPlace`).
-/

namespace Hulatang

/-! ## What is posted -/

namespace WSProactor

/-- Nothing but a `WRITE` of all that is queued may have been posted. -/
structure Posts (s t : WSProactor) : Prop where
  overs : t.overs = s.overs ∨
    t.writing = true ∧ t.overs = s.overs ++ [.write s.data (s.sendBuffer.readableBytes % 2^32)]
  sendBuffer : t.sendBuffer = s.sendBuffer
  begin : t.begin = s.begin
  rovers : t.rovers = s.rovers

variable {s : WSProactor}

theorem posts_postSend (hwriting : s.writing = true) : Posts s s.postSend := by
  unfold WSProactor.postSend
  split_ifs
  · exact ⟨.inr ⟨hwriting, rfl⟩, rfl, rfl, rfl⟩
  · exact ⟨.inl rfl, rfl, rfl, rfl⟩

theorem posts_enableWriting (h : s.rovers = []) : Posts s s.enableWriting := by
  rw [enableWriting_eq h]
  unfold updatePost
  rw [if_pos rfl]
  split_ifs with hempty hscan
  · exact ⟨.inl rfl, rfl, rfl, rfl⟩
  · exact ⟨.inl rfl, rfl, rfl, rfl⟩
  · have hposts : Posts { s with writing := true } _ := posts_postSend rfl
    exact ⟨hposts.overs, hposts.sendBuffer, hposts.begin, hposts.rovers⟩

/-- An append, and what it posts. -/
theorem posts_send (h : s.rovers = []) {buf : Buf} {sendBuffer : Buffer}
    (happend : s.sendBuffer.append buf.buf = .ok sendBuffer) (begin : ℕ) :
    Posts { s with sendBuffer := sendBuffer, begin := begin, sent := s.sent ++ buf.buf }
      (s.send buf begin) := by
  unfold WSProactor.send
  rw [happend]
  dsimp only
  split_ifs
  · exact ⟨.inl rfl, rfl, rfl, rfl⟩
  · exact posts_enableWriting h

theorem posts_disableWriting (h : s.rovers = []) : Posts s s.disableWriting := by
  rw [disableWriting_eq h]
  exact ⟨.inl rfl, rfl, rfl, rfl⟩

end WSProactor

/-! ## The storage of `sendBuffer` -/

/-- What an operation was posted with: the storage, and the bytes of the region. -/
structure Region where
  storage : ℕ
  bytes : List NoInit
  deriving DecidableEq

/-- A connection on `WSProactor`, with the storage of its `sendBuffer`. -/
structure StoredProactor where
  proactor : WSProactor
  /-- How often the vector has moved to new storage. -/
  storage : ℕ
  /-- `buffer_.capacity()`. -/
  capacity : ℕ
  /-- What each of the channel's pending operations was posted with, in their order. -/
  regions : List Region
  deriving DecidableEq

/-- The steps of a run. Where the vector needs new storage, the allocator chooses its address and how much
of it stays spare. -/
inductive StoredOp
  | send (buf : Buf) (begin spare : ℕ)
  | completion (k bytes : ℕ)
  | messageReturn
  deriving DecidableEq

namespace StoredProactor

/-- The bytes of the vector from the address `data` on. -/
def bytesAt (s : StoredProactor) (data len : ℕ) : List NoInit :=
  segment s.proactor.sendBuffer.buffer (data - s.proactor.begin) (data - s.proactor.begin + len)

/-- What an operation is posted with now. -/
def region (s : StoredProactor) : Over → Region
  | .write data len => ⟨s.storage, s.bytesAt data len⟩
  | _ => ⟨s.storage, []⟩

/-- The proactor has taken a step, and may have posted operations behind those that are still pending. -/
def post (s : StoredProactor) (pending : List Region) (proactor : WSProactor) : StoredProactor :=
  let t := { s with proactor := proactor }
  { t with regions := pending ++ (proactor.overs.drop pending.length).map t.region }

/-- A connection that has just been established. -/
def initial (begin spare : ℕ) : StoredProactor where
  proactor := .initial begin
  storage := 0
  capacity := Buffer.kCheapPrepend + Buffer.kInitialSize + spare
  regions := [⟨0, []⟩]

/-- Whether the append of a `send` takes the vector beyond its capacity, and to which size. -/
def grows (s : StoredProactor) (buf : Buf) : Option ℕ :=
  match s.proactor.sendBuffer.append buf.buf with
  | .ok b => if s.capacity < b.buffer.length then some b.buffer.length else none
  | .error _ => none

def step (s : StoredProactor) : StoredOp → Option StoredProactor
  | .send buf begin spare =>
    match s.grows buf with
    | some size =>
      let moved := { s with storage := s.storage + 1, capacity := size + spare }
      (s.proactor.step (.send buf begin)).map (moved.post s.regions)
    | none => (s.proactor.step (.send buf s.proactor.begin)).map (s.post s.regions)
  | .completion k bytes => (s.proactor.step (.completion k bytes)).map (s.post (s.regions.eraseIdx k))
  | .messageReturn => (s.proactor.step .messageReturn).map (s.post s.regions)

/-- The region of a `WRITE` is in the storage of `sendBuffer`, where the readable bytes begin, and holds
the bytes that it was posted with. -/
def Kept (s : StoredProactor) : Over → Region → Prop
  | .write data len, r =>
    r.storage = s.storage ∧ data = s.proactor.data ∧
      data + len ≤ s.proactor.begin + s.proactor.sendBuffer.buffer.length ∧ s.bytesAt data len = r.bytes
  | _, _ => True

/-- So is that of every pending operation. -/
def Stable (s : StoredProactor) : Prop := List.Forall₂ s.Kept s.proactor.overs s.regions

/-- A `send` that finds a `WRITE` outstanding has room behind the writer index, or grows the vector within
its capacity. -/
def InPlace (s : StoredProactor) : StoredOp → Prop
  | .send buf _ _ =>
    s.proactor.writes ≠ [] →
      buf.buf.length ≤ s.proactor.sendBuffer.writableBytes ∨
        s.proactor.sendBuffer.writableBytes + s.proactor.sendBuffer.prependableBytes <
            buf.buf.length + Buffer.kCheapPrepend ∧
          s.proactor.sendBuffer.writerIndex + buf.buf.length ≤ s.capacity
  | _ => True

instance (s : StoredProactor) : DecidablePred s.InPlace
  | .send buf _ _ =>
    inferInstanceAs (Decidable (s.proactor.writes ≠ [] →
      buf.buf.length ≤ s.proactor.sendBuffer.writableBytes ∨
        s.proactor.sendBuffer.writableBytes + s.proactor.sendBuffer.prependableBytes <
            buf.buf.length + Buffer.kCheapPrepend ∧
          s.proactor.sendBuffer.writerIndex + buf.buf.length ≤ s.capacity))
  | .completion _ _ | .messageReturn => inferInstanceAs (Decidable True)

/-- The invariant of the runs that meet the condition. -/
structure Held (s : StoredProactor) : Prop where
  wellFormed : s.proactor.sendBuffer.WellFormed
  within : s.proactor.sendBuffer.buffer.length ≤ s.capacity
  rovers : s.proactor.rovers = []
  one : s.proactor.writes.length ≤ 1
  writing : s.proactor.writes ≠ [] → s.proactor.writing = true
  fits : ∀ len ∈ s.proactor.writes, len ≤ s.proactor.sendBuffer.readableBytes
  stable : Stable s

variable {s t : StoredProactor}

/-! ### What stays kept -/

/-- Only a `WRITE` has something to keep. -/
theorem kept_of_writeLen_eq_none {o : Over} {r : Region} (h : o.writeLen = none) : s.Kept o r := by
  cases o with
  | write data len => cases h
  | none | read | update => exact trivial

theorem forall₂_kept_of_no_writes {overs : List Over} {regions : List Region}
    (h : overs.filterMap Over.writeLen = []) (hlength : overs.length = regions.length) :
    List.Forall₂ s.Kept overs regions := by
  refine List.forall₂_iff_zip.mpr ⟨hlength, fun hmem => kept_of_writeLen_eq_none ?_⟩
  exact List.filterMap_eq_nil_iff.mp h _ (List.of_mem_zip hmem).1

/-- A region is kept where neither the vector nor its bytes change. -/
theorem Kept.congr {o : Over} {r : Region} (h : s.Kept o r) (hstorage : t.storage = s.storage)
    (hbegin : t.proactor.begin = s.proactor.begin)
    (hbuffer : t.proactor.sendBuffer = s.proactor.sendBuffer) : t.Kept o r := by
  cases o with
  | write data len =>
    obtain ⟨hr, hdata, hwithin, hbytes⟩ := h
    refine ⟨hr.trans hstorage.symm, ?_, ?_, ?_⟩
    · unfold WSProactor.data
      rw [hbegin, hbuffer]
      exact hdata
    · rw [hbegin, hbuffer]
      exact hwithin
    · unfold bytesAt
      rw [hbegin, hbuffer]
      exact hbytes
  | none | read | update => exact trivial

/-- The bytes at the address of the readable bytes. -/
theorem bytesAt_data (hwf : s.proactor.sendBuffer.WellFormed) {len : ℕ}
    (hlen : len ≤ s.proactor.sendBuffer.readableBytes) :
    s.bytesAt s.proactor.data len = s.proactor.sendBuffer.toStringView.take len := by
  have hreadable := hwf.readableBytes_eq
  have hreader := hwf.reader_le
  have hindex : s.proactor.data - s.proactor.begin = s.proactor.sendBuffer.readerIndex :=
    Nat.add_sub_cancel_left _ _
  unfold bytesAt
  rw [hindex, hwf.toStringView_eq]
  exact (take_segment (by omega)).symm

/-- A region of readable bytes is within the vector. -/
theorem data_add_le (hwf : s.proactor.sendBuffer.WellFormed) {len : ℕ}
    (hlen : len ≤ s.proactor.sendBuffer.readableBytes) :
    s.proactor.data + len ≤ s.proactor.begin + s.proactor.sendBuffer.buffer.length := by
  have hreadable := hwf.readableBytes_eq
  have hreader := hwf.reader_le
  have hwriter := hwf.writer_le
  unfold WSProactor.data
  omega

/-- A region is kept where bytes are added behind it in place. -/
theorem Kept.append {o : Over} {r : Region} (h : s.Kept o r) (hwf : s.proactor.sendBuffer.WellFormed)
    (hwf' : t.proactor.sendBuffer.WellFormed) (hstorage : t.storage = s.storage)
    (hdata : t.proactor.data = s.proactor.data) {data : List NoInit}
    (hview : t.proactor.sendBuffer.toStringView = s.proactor.sendBuffer.toStringView ++ data)
    (hfits : ∀ len, o.writeLen = some len → len ≤ s.proactor.sendBuffer.readableBytes) : t.Kept o r := by
  cases o with
  | none | read | update => exact trivial
  | write address len =>
    obtain ⟨hr, rfl, -, hbytes⟩ := h
    have hlen : len ≤ s.proactor.sendBuffer.readableBytes := hfits len rfl
    have hlen' : len ≤ t.proactor.sendBuffer.readableBytes := by
      rw [← hwf'.length_toStringView, hview, List.length_append, hwf.length_toStringView]
      exact Nat.le_add_right_of_le hlen
    refine ⟨hr.trans hstorage.symm, hdata.symm, ?_, ?_⟩
    · rw [← hdata]
      exact data_add_le hwf' hlen'
    · rw [← hdata, bytesAt_data hwf' hlen', hview, ← hbytes, bytesAt_data hwf hlen]
      refine List.take_append_of_le_length ?_
      rw [hwf.length_toStringView]
      exact hlen

/-- An operation is posted with what it keeps. -/
theorem kept_region (hwf : s.proactor.sendBuffer.WellFormed) {len : ℕ}
    (hlen : len ≤ s.proactor.sendBuffer.readableBytes) :
    s.Kept (.write s.proactor.data len) (s.region (.write s.proactor.data len)) :=
  ⟨rfl, rfl, data_add_le hwf hlen, rfl⟩

/-! ### The steps -/

/-- With no `WRITE` pending, what is posted is kept from then on. -/
theorem held_post {pending : List Region} {p q : WSProactor} (hposts : WSProactor.Posts p q)
    (hwf : p.sendBuffer.WellFormed) (hwithin : p.sendBuffer.buffer.length ≤ s.capacity)
    (hrovers : p.rovers = []) (hnone : p.writes = []) (hlength : p.overs.length = pending.length) :
    Held (s.post pending q) := by
  obtain ⟨hovers, hbuffer, hbegin, hroversq⟩ := hposts
  have hwfq : q.sendBuffer.WellFormed := by
    rw [hbuffer]
    exact hwf
  have hwithinq : q.sendBuffer.buffer.length ≤ s.capacity := by
    rw [hbuffer]
    exact hwithin
  have hpending : List.Forall₂ (s.post pending q).Kept p.overs pending :=
    forall₂_kept_of_no_writes hnone hlength
  -- Either nothing has been posted, or the readable bytes are, in the region that they are in.
  rcases hovers with hsame | ⟨hwriting, hnew⟩
  · have hwrites : q.writes = [] := by
      unfold WSProactor.writes
      rw [hsame]
      exact hnone
    refine ⟨hwfq, hwithinq, hroversq.trans hrovers, ?_, fun hne => absurd hwrites hne, ?_, ?_⟩
    · show q.writes.length ≤ 1
      rw [hwrites]
      exact Nat.zero_le _
    · show ∀ len ∈ q.writes, _
      rw [hwrites]
      intro len hmem
      cases hmem
    · show List.Forall₂ _ q.overs (pending ++ (q.overs.drop pending.length).map _)
      rw [hsame, ← hlength, List.drop_length]
      show List.Forall₂ _ _ (pending ++ [])
      rw [List.append_nil]
      exact hpending
  · have hwrites : q.writes = [p.sendBuffer.readableBytes % 2^32] := by
      unfold WSProactor.writes
      rw [hnew, List.filterMap_append]
      show p.writes ++ _ = _
      rw [hnone]
      rfl
    have hfits : p.sendBuffer.readableBytes % 2^32 ≤ q.sendBuffer.readableBytes := by
      rw [hbuffer]
      exact Nat.mod_le _ _
    have hdata : p.data = q.data := by
      unfold WSProactor.data
      rw [hbuffer, hbegin]
    refine ⟨hwfq, hwithinq, hroversq.trans hrovers, ?_, fun _ => hwriting, ?_, ?_⟩
    · show q.writes.length ≤ 1
      rw [hwrites]
      exact Nat.le_refl _
    · show ∀ len ∈ q.writes, _
      rw [hwrites]
      intro len hmem
      obtain rfl := List.mem_singleton.mp hmem
      exact hfits
    · show List.Forall₂ _ q.overs (pending ++ (q.overs.drop pending.length).map _)
      rw [hnew, ← hlength, List.drop_left, hdata]
      refine List.rel_append hpending (.cons ?_ .nil)
      exact kept_region (s := { s with proactor := q }) hwfq hfits

/-- What changes neither the bytes nor the pending `WRITE`s. -/
theorem Held.post_of_writes_eq (h : Held s) {overs new : List Over} {pending : List Region}
    (receiving : Bool) (hover : (overs ++ new).filterMap Over.writeLen = s.proactor.writes)
    (hnew : new.filterMap Over.writeLen = []) (hkept : List.Forall₂ s.Kept overs pending) :
    Held (s.post pending { s.proactor with overs := overs ++ new, receiving := receiving }) := by
  refine ⟨h.wellFormed, h.within, h.rovers, ?_, ?_, ?_, ?_⟩
  · show ((overs ++ new).filterMap Over.writeLen).length ≤ 1
    rw [hover]
    exact h.one
  · show (overs ++ new).filterMap Over.writeLen ≠ [] → _
    rw [hover]
    exact h.writing
  · show ∀ len ∈ (overs ++ new).filterMap Over.writeLen, _
    rw [hover]
    exact h.fits
  · show List.Forall₂ _ (overs ++ new) (pending ++ ((overs ++ new).drop pending.length).map _)
    rw [← hkept.length_eq, List.drop_left]
    refine List.rel_append (hkept.imp fun o r hr => hr.congr rfl rfl rfl) ?_
    exact forall₂_kept_of_no_writes hnew (List.length_map _).symm

/-- A completion takes the region of the operation off with it. -/
theorem Held.forall₂_eraseIdx (h : Held s) (k : ℕ) :
    List.Forall₂ s.Kept (s.proactor.overs.eraseIdx k) (s.regions.eraseIdx k) := by
  rw [List.eraseIdx_eq_take_drop_succ, List.eraseIdx_eq_take_drop_succ]
  exact List.rel_append (List.forall₂_take k h.stable) (List.forall₂_drop (k + 1) h.stable)

/-- Every completion keeps the invariant. -/
theorem Held.process (h : Held s) {k bytes : ℕ} {o : Over} (hk : s.proactor.overs[k]? = some o)
    (hbytes : WSProactor.completes bytes o = true) :
    Held (s.post (s.regions.eraseIdx k) (s.proactor.process k o)) := by
  obtain ⟨before, rest, hwrites, hrest⟩ := WSProactor.writes_eraseIdx hk
  have hkept := h.forall₂_eraseIdx k
  rw [WSProactor.process_eq h.rovers]
  cases o with
  | none | update => cases hbytes
  | read =>
    have hover : (s.proactor.overs.eraseIdx k ++ []).filterMap Over.writeLen = s.proactor.writes := by
      rw [List.append_nil, hrest, hwrites]
      simp [Over.writeLen]
    have hheld := h.post_of_writes_eq true hover rfl hkept
    rw [List.append_nil] at hheld
    exact hheld
  | write data len =>
    have hmem : len ∈ s.proactor.writes := by
      rw [hwrites]
      simp [Over.writeLen]
    -- It is the only one.
    have hnone : (s.proactor.overs.eraseIdx k).filterMap Over.writeLen = [] := by
      have hone := h.one
      rw [hwrites] at hone
      rw [hrest]
      refine List.length_eq_zero_iff.mp ?_
      simp only [Over.writeLen, Option.toList_some, List.length_append, List.length_cons,
        List.length_nil] at hone ⊢
      omega
    obtain ⟨sendBuffer, hretrieve, hwf, -⟩ := h.wellFormed.retrieve (h.fits len hmem)
    have hwithin : sendBuffer.buffer.length ≤ s.capacity := by
      rw [Buffer.retrieve_buffer hretrieve]
      exact h.within
    have hwriting : s.proactor.writing = true := h.writing (List.ne_nil_of_mem hmem)
    show Held (s.post _ (WSProactor.handleWrite _ len))
    unfold WSProactor.handleWrite
    dsimp only
    rw [hretrieve]
    dsimp only
    split_ifs
    · exact held_post (WSProactor.posts_postSend hwriting) hwf hwithin h.rovers hnone hkept.length_eq
    · exact held_post (WSProactor.posts_disableWriting h.rovers) hwf hwithin h.rovers hnone
        hkept.length_eq

/-- What a `send` does to the vector. -/
theorem send_cases (hwf : s.proactor.sendBuffer.WellFormed) {buf : Buf} {begin spare : ℕ}
    (hs : s.step (.send buf begin spare) = some t) :
    ∃ sendBuffer u place, s.proactor.sendBuffer.append buf.buf = .ok sendBuffer ∧
      t = StoredProactor.post u s.regions (s.proactor.send buf place) ∧
      (sendBuffer.buffer.length ≤ s.capacity ∧ u = s ∧ place = s.proactor.begin ∨
        s.capacity < sendBuffer.buffer.length ∧ u.storage = s.storage + 1 ∧
          sendBuffer.buffer.length ≤ u.capacity) := by
  have hsent : ∀ place q, s.proactor.step (.send buf place) = some q →
      s.proactor.sendBuffer.append buf.buf ≠ .error .lengthError ∧ s.proactor.send buf place = q := by
    intro place q hq
    unfold WSProactor.step at hq
    dsimp only at hq
    split_ifs at hq with hfault hthrown
    refine ⟨fun herror => hthrown ?_, Option.some.inj hq⟩
    unfold WSProactor.send
    rw [herror]
  unfold step at hs
  dsimp only at hs
  split at hs
  · rename_i size hgrows
    obtain ⟨q, hq, rfl⟩ := Option.map_eq_some_iff.mp hs
    obtain ⟨-, rfl⟩ := hsent _ _ hq
    unfold grows at hgrows
    split at hgrows
    · rename_i b happend
      split_ifs at hgrows with hmoved
      cases hgrows
      exact ⟨b, _, begin, happend, rfl, .inr ⟨hmoved, rfl, Nat.le_add_right _ _⟩⟩
    · cases hgrows
  · rename_i hgrows
    obtain ⟨q, hq, rfl⟩ := Option.map_eq_some_iff.mp hs
    obtain ⟨hthrown, rfl⟩ := hsent _ _ hq
    rcases hwf.append buf.len_le with ⟨b, happend, -⟩ | ⟨herror, -⟩
    · unfold grows at hgrows
      rw [happend] at hgrows
      dsimp only at hgrows
      split_ifs at hgrows with hmoved
      exact ⟨b, s, s.proactor.begin, happend, rfl, .inl ⟨Nat.le_of_not_lt hmoved, rfl, rfl⟩⟩
    · exact absurd herror hthrown

/-- A `send` with no `WRITE` outstanding may post one, and touches no region. -/
theorem Held.send_of_no_writes (h : Held s) (hnone : s.proactor.writes = []) {buf : Buf}
    {begin spare : ℕ} (hs : s.step (.send buf begin spare) = some t) : Held t := by
  obtain ⟨sendBuffer, u, place, happend, rfl, hmoved⟩ := send_cases h.wellFormed hs
  obtain ⟨hwf, -⟩ := h.wellFormed.appended buf.len_le happend
  have hwithin : sendBuffer.buffer.length ≤ u.capacity := by
    rcases hmoved with ⟨hroom, rfl, -⟩ | ⟨-, -, hroom⟩
    · exact hroom
    · exact hroom
  have hlength := h.stable.length_eq
  exact held_post (WSProactor.posts_send h.rovers happend place) hwf hwithin h.rovers hnone hlength

/-- An operation that is pending has a region. -/
theorem Held.exists_region (h : Held s) {o : Over} (ho : o ∈ s.proactor.overs) :
    ∃ r, (o, r) ∈ s.proactor.overs.zip s.regions := by
  have hfst : (s.proactor.overs.zip s.regions).map Prod.fst = s.proactor.overs :=
    List.map_fst_zip (Nat.le_of_eq h.stable.length_eq)
  rw [← hfst] at ho
  obtain ⟨⟨o, r⟩, hmem, rfl⟩ := List.mem_map.mp ho
  exact ⟨r, hmem⟩

/-- With a `WRITE` outstanding, a `send` only appends: the flag is set. -/
theorem Held.send_appends (h : Held s) (hout : s.proactor.writes ≠ []) {buf : Buf} {begin spare : ℕ}
    (hs : s.step (.send buf begin spare) = some t) :
    ∃ sendBuffer u place, s.proactor.sendBuffer.append buf.buf = .ok sendBuffer ∧
      t = { u with
        proactor := { s.proactor with
          sendBuffer := sendBuffer, begin := place, sent := s.proactor.sent ++ buf.buf }
        regions := s.regions } ∧
      (sendBuffer.buffer.length ≤ s.capacity ∧ u = s ∧ place = s.proactor.begin ∨
        s.capacity < sendBuffer.buffer.length ∧ u.storage = s.storage + 1) := by
  obtain ⟨sendBuffer, u, place, happend, rfl, hmoved⟩ := send_cases h.wellFormed hs
  refine ⟨sendBuffer, u, place, happend, ?_, hmoved.imp_right fun hnew => ⟨hnew.1, hnew.2.1⟩⟩
  have hsend : s.proactor.send buf place =
      { s.proactor with
        sendBuffer := sendBuffer, begin := place, sent := s.proactor.sent ++ buf.buf } := by
    unfold WSProactor.send
    rw [happend]
    exact if_pos (h.writing hout)
  have hregions : s.regions ++ (s.proactor.overs.drop s.regions.length).map
      ({ u with proactor := s.proactor.send buf place }).region = s.regions := by
    rw [← h.stable.length_eq, List.drop_length]
    exact List.append_nil _
  rw [hsend] at hregions ⊢
  unfold post
  exact congrArg _ hregions

/-- The region of an outstanding `WRITE` is not kept by a `send` that is not in place. -/
theorem Held.inPlace_of_stable (h : Held s) {buf : Buf} {begin spare : ℕ}
    (hs : s.step (.send buf begin spare) = some t) (hstable : Stable t) :
    s.InPlace (.send buf begin spare) := by
  intro hout
  obtain ⟨sendBuffer, u, place, happend, rfl, hmoved⟩ := h.send_appends hout hs
  obtain ⟨len, hlen⟩ := List.exists_mem_of_ne_nil _ hout
  obtain ⟨o, ho, hwrite⟩ := List.mem_filterMap.mp hlen
  obtain ⟨r, hr⟩ := h.exists_region ho
  have hbefore : s.Kept o r := List.forall₂_zip h.stable hr
  have hafter := List.forall₂_zip hstable hr
  cases o with
  | none | read | update => cases hwrite
  | write data n =>
    have hstorage : u.storage = s.storage := hafter.1.symm.trans hbefore.1
    rcases hmoved with ⟨hroom, hu, rfl⟩ | ⟨-, hnew⟩
    · obtain rfl : s = u := hu.symm
      have hreader : sendBuffer.readerIndex = s.proactor.sendBuffer.readerIndex :=
        Nat.add_left_cancel (hafter.2.1.symm.trans hbefore.2.1)
      cases h.wellFormed.placed_append buf.len_le happend with
      | room hroom _ _ => exact .inl hroom
      | grown _ hgrow _ hgrown => exact .inr ⟨hgrow, hgrown ▸ hroom⟩
      | compacted _ _ hfront hmoved _ =>
        rw [hfront] at hreader
        exact absurd hreader (Nat.ne_of_lt hmoved)
    · exact absurd (hnew.symm.trans hstorage) (Nat.succ_ne_self _)

/-- An append that is in place stays within the capacity, and moves no byte. -/
theorem InPlace.appended {buf : Buf} {begin spare : ℕ} (hplace : s.InPlace (.send buf begin spare))
    (h : Held s) (hout : s.proactor.writes ≠ []) {sendBuffer : Buffer}
    (happend : s.proactor.sendBuffer.append buf.buf = .ok sendBuffer) :
    sendBuffer.readerIndex = s.proactor.sendBuffer.readerIndex ∧
      sendBuffer.buffer.length ≤ s.capacity := by
  have hin := hplace hout
  cases h.wellFormed.placed_append buf.len_le happend with
  | room hroom hreader hsize => exact ⟨hreader, hsize ▸ h.within⟩
  | grown hfull _ hreader hsize =>
    refine ⟨hreader, ?_⟩
    rcases hin with hroom | ⟨-, hroom⟩ <;> omega
  | compacted hfull hgap _ _ _ =>
    rcases hin with hroom | ⟨hgrow, -⟩ <;> omega

/-- With a `WRITE` outstanding, a `send` that is in place keeps its region. -/
theorem Held.send_of_inPlace (h : Held s) (hout : s.proactor.writes ≠ []) {buf : Buf} {begin spare : ℕ}
    (hs : s.step (.send buf begin spare) = some t) (hplace : s.InPlace (.send buf begin spare)) :
    Held t := by
  obtain ⟨sendBuffer, u, place, happend, rfl, hmoved⟩ := h.send_appends hout hs
  obtain ⟨hreader, hcapacity⟩ := hplace.appended h hout happend
  obtain ⟨rfl, rfl⟩ : u = s ∧ place = s.proactor.begin := by
    rcases hmoved with ⟨-, hsame⟩ | ⟨hbig, -⟩
    · exact hsame
    · exact absurd hbig (Nat.not_lt.mpr hcapacity)
  obtain ⟨hwf, hview⟩ := h.wellFormed.appended buf.len_le happend
  have hreadable : u.proactor.sendBuffer.readableBytes ≤ sendBuffer.readableBytes := by
    rw [← h.wellFormed.length_toStringView, ← hwf.length_toStringView, hview, List.length_append]
    exact Nat.le_add_right _ _
  refine ⟨hwf, hcapacity, h.rovers, h.one, h.writing,
    fun len hlen => Nat.le_trans (h.fits len hlen) hreadable, ?_⟩
  refine List.forall₂_iff_zip.mpr ⟨h.stable.length_eq, fun hmem => ?_⟩
  have hdata : u.proactor.begin + sendBuffer.readerIndex = u.proactor.data := by
    rw [hreader]
    rfl
  have hbefore := List.forall₂_zip h.stable hmem
  exact hbefore.append h.wellFormed hwf rfl hdata hview fun len hwrite =>
    h.fits len (List.mem_filterMap.mpr ⟨_, (List.of_mem_zip hmem).1, hwrite⟩)

/-- A step from a state with the invariant reaches a stable one exactly when it is in place, and keeps the
invariant if it is. -/
theorem Held.step {op : StoredOp} (h : Held s) (hs : s.step op = some t) :
    (Stable t ↔ s.InPlace op) ∧ (s.InPlace op → Held t) := by
  cases op with
  | send buf begin spare =>
    by_cases hout : s.proactor.writes = []
    · have hheld := h.send_of_no_writes hout hs
      exact ⟨⟨fun _ hne => absurd hout hne, fun _ => hheld.stable⟩, fun _ => hheld⟩
    · have hheld := h.send_of_inPlace hout hs
      exact ⟨⟨h.inPlace_of_stable hs, fun hplace => (hheld hplace).stable⟩, hheld⟩
  | completion k bytes =>
    obtain ⟨q, hq, rfl⟩ := Option.map_eq_some_iff.mp hs
    unfold WSProactor.step at hq
    dsimp only at hq
    split_ifs at hq with hfault
    split at hq
    · rename_i o hk
      split_ifs at hq with hdone
      cases hq
      have hheld := h.process hk hdone.2
      exact ⟨⟨fun _ => trivial, fun _ => hheld.stable⟩, fun _ => hheld⟩
    · cases hq
  | messageReturn =>
    obtain ⟨q, hq, rfl⟩ := Option.map_eq_some_iff.mp hs
    unfold WSProactor.step at hq
    dsimp only at hq
    split_ifs at hq with hfault hreceiving
    cases hq
    have hover : (s.proactor.overs ++ [Over.read]).filterMap Over.writeLen = s.proactor.writes := by
      rw [List.filterMap_append]
      exact List.append_nil _
    have hheld := h.post_of_writes_eq false hover rfl h.stable
    exact ⟨⟨fun _ => trivial, fun _ => hheld.stable⟩, fun _ => hheld⟩

theorem held_initial (begin spare : ℕ) : Held (initial begin spare) := by
  refine ⟨Buffer.wellFormed_ofSize (by decide), ?_, rfl, Nat.zero_le _, fun hne => absurd rfl hne,
    (fun _ hmem => nomatch hmem), .cons trivial .nil⟩
  show (List.replicate (Buffer.kCheapPrepend + Buffer.kInitialSize) _).length ≤ _
  rw [List.length_replicate]
  exact Nat.le_add_right _ _

/-- The regions that have been posted are stable over a run exactly when each `send` that finds a `WRITE`
outstanding leaves the vector and its readable bytes where they are. -/
theorem stable_iff_inPlace (begin spare : ℕ) (ops : List StoredOp) :
    Machine.Always step Stable (initial begin spare) ops ↔
      Machine.Meets step InPlace (initial begin spare) ops := by
  have hstep : ∀ s op t, Held s → True → step s op = some t →
      (Stable t ↔ s.InPlace op) ∧ (s.InPlace op → Held t) := fun _ _ _ h _ hs => h.step hs
  exact Machine.always_iff_meets (fun _ h => h.stable) hstep (held_initial begin spare)
    (Machine.meets_of_labels fun _ _ => trivial)

/-- A byte is being sent when 1024 more are appended: the vector moves to new storage. -/
theorem moved_while_outstanding :
    ¬ ∀ (begin spare : ℕ) (ops : List StoredOp),
      Machine.Always step Stable (initial begin spare) ops := by
  intro h
  have hrun := h 0 0 [.send ⟨[7], by decide⟩ 0 0, .send ⟨.replicate 1024 0, by decide +kernel⟩ 0 0]
  have hends : (Machine.run step (initial 0 0)
      [.send ⟨[7], by decide⟩ 0 0, .send ⟨.replicate 1024 0, by decide +kernel⟩ 0 0]).map
        (fun t => (t.storage, t.proactor.overs, t.regions)) =
      some (1, [.read, .write 8 1], [⟨0, []⟩, ⟨0, [some 7]⟩]) := by
    decide +kernel
  obtain ⟨t, ht, hlast⟩ := Option.map_eq_some_iff.mp hends
  obtain ⟨hstorage, hlists⟩ := Prod.mk.inj hlast
  obtain ⟨hovers, hregions⟩ := Prod.mk.inj hlists
  have hstable := hrun.of_run ht
  unfold Stable at hstable
  rw [hovers, hregions] at hstable
  have hkept : t.Kept (.write 8 1) ⟨0, [some 7]⟩ :=
    List.forall₂_zip hstable (List.mem_cons_of_mem _ List.mem_cons_self)
  exact absurd (hkept.1.trans hstorage) Nat.zero_ne_one

end StoredProactor

end Hulatang
