import Mathlib.Algebra.GroupWithZero.Nat
import Mathlib.Logic.Function.Basic
import Mathlib.Tactic.SplitIfs
import Hulatang.Lib.Machine
import Hulatang.Lib.Owners

/-!
# The tables of the epoll loop

What an `EPollFdEventManager` watches is written down three times: in the flags of a channel, in the vector
`channels`, which is indexed by descriptors and made longer when one is too large for it, and in the interest
list of the kernel, with the mask of events and the pointer that `epoll_wait` is to report. Nothing compares
them: every change of the flags writes the mask at once, `add` and `cancel` write the vector and the list, and
the kernel takes a descriptor off the list by itself when it is closed.

They say the same, no `epoll_ctl` fails, and no entry outside of the vector is used in exactly those runs in
which a channel is added while its descriptor is not watched, changed and cancelled while it is, cancelled
without flags, and closed or destroyed only when it is not watched (`sound_iff_orderly`).
-/

namespace Hulatang

/-- A `Channel`, without a descriptor when that has been closed. -/
structure Channel where
  fd : Option ℕ
  reading : Bool
  writing : Bool
  deriving DecidableEq

/-- An entry of the interest list. -/
structure Interest where
  /-- `EPOLLIN | EPOLLPRI`. -/
  reading : Bool
  /-- `EPOLLOUT`. -/
  writing : Bool
  /-- `data.ptr`. -/
  ptr : ℕ
  deriving DecidableEq

/-- How the program ends. -/
inductive WatchFault
  /-- `getFd` of a descriptor that has been closed. -/
  | noImpl
  /-- `i * 2` is more than an `int`. -/
  | overflow
  /-- `assert(channels[i] == nullptr)`. -/
  | occupied
  /-- `channels[i]` is outside of the vector, or null. -/
  | empty
  /-- `assert(isNoneEvent())`. -/
  | flags
  /-- An `epoll_ctl` fails, and `epollCtl` aborts. -/
  | ctl
  deriving DecidableEq

/-- The manager, the channels of the program, and the kernel. -/
structure EPollFdEventManager where
  /-- The channels in the order of their construction, without those that have been destroyed. -/
  objects : List (Option Channel)
  channels : List (Option ℕ)
  interest : ℕ → Option Interest
  fault : Option WatchFault

namespace EPollFdEventManager

def initial : EPollFdEventManager := ⟨[], .replicate 1024 none, fun _ => none, none⟩

def fail (s : EPollFdEventManager) (fault : WatchFault) : EPollFdEventManager :=
  { s with fault := some fault }

/-- A channel that has not been destroyed. -/
def object (s : EPollFdEventManager) (c : ℕ) : Option Channel := s.objects[c]?.join

def setObject (s : EPollFdEventManager) (c : ℕ) (channel : Option Channel) : EPollFdEventManager :=
  { s with objects := s.objects.set c channel }

/-- The channel at an index, if there is one. -/
def entry (channels : List (Option ℕ)) (i : ℕ) : Option ℕ := channels[i]?.join

/-- `channels.resize(i * 2)`, where `i` is too large. -/
def resized (channels : List (Option ℕ)) (i : ℕ) : List (Option ℕ) :=
  if channels.length ≤ i then channels ++ .replicate (i * 2 - channels.length) none else channels

/-! ## `epollCtl` -/

inductive CtlOp
  | add
  | mod
  | del
  deriving DecidableEq

/-- `epollCtl`, of a channel with an open descriptor. -/
def epollCtl (s : EPollFdEventManager) (op : CtlOp) (c fd : ℕ) (channel : Channel) : EPollFdEventManager :=
  let event : Interest := ⟨channel.reading, channel.writing, c⟩
  match op, s.interest fd with
  | .add, none => { s with interest := Function.update s.interest fd (some event) }
  | .mod, some _ => { s with interest := Function.update s.interest fd (some event) }
  | .del, some _ => { s with interest := Function.update s.interest fd none }
  | _, _ => s.fail .ctl

/-! ## The calls -/

/-- `add`. -/
def add (s : EPollFdEventManager) (c : ℕ) (channel : Channel) : EPollFdEventManager :=
  match channel.fd with
  | none => s.fail .noImpl
  | some i =>
    if s.channels.length ≤ i ∧ 2^31 ≤ i * 2 then s.fail .overflow
    else
      let channels := resized s.channels i
      if entry channels i ≠ none then s.fail .occupied
      else { s with channels := channels.set i (some c) }.epollCtl .add c i channel

/-- What changes the flags of a channel. -/
inductive FlagsCall
  | enableReading
  | disableReading
  | enableWriting
  | disableWriting
  | disableAll
  deriving DecidableEq

def FlagsCall.flags (channel : Channel) : FlagsCall → Channel
  | .enableReading => { channel with reading := true }
  | .disableReading => { channel with reading := false }
  | .enableWriting => { channel with writing := true }
  | .disableWriting => { channel with writing := false }
  | .disableAll => { channel with reading := false, writing := false }

/-- `Channel::update`, after the flags have been changed. -/
def update (s : EPollFdEventManager) (c : ℕ) (channel : Channel) : EPollFdEventManager :=
  let s := s.setObject c (some channel)
  match channel.fd with
  | none => s.fail .noImpl
  | some fd => s.epollCtl .mod c fd channel

/-- `cancel`. -/
def cancel (s : EPollFdEventManager) (c : ℕ) (channel : Channel) : EPollFdEventManager :=
  match channel.fd with
  | none => s.fail .noImpl
  | some i =>
    let s := s.epollCtl .del c i channel
    if s.fault.isSome then s
    else if entry s.channels i = none then s.fail .empty
    else { s with channels := s.channels.set i none }

/-- `Channel::cancel`. -/
def channelCancel (s : EPollFdEventManager) (c : ℕ) (channel : Channel) : EPollFdEventManager :=
  if channel.reading = true ∨ channel.writing = true then s.fail .flags else s.cancel c channel

/-- A descriptor is closed, and the kernel forgets it. -/
def closeFd (s : EPollFdEventManager) : Option ℕ → EPollFdEventManager
  | none => s
  | some fd => { s with interest := Function.update s.interest fd none }

/-- `getFd().close()`. -/
def close (s : EPollFdEventManager) (c : ℕ) (channel : Channel) : EPollFdEventManager :=
  if channel.fd = none then s.fail .noImpl
  else (s.closeFd channel.fd).setObject c (some { channel with fd := none })

/-- `~Channel`. -/
def destroy (s : EPollFdEventManager) (c : ℕ) (channel : Channel) : EPollFdEventManager :=
  (s.closeFd channel.fd).setObject c none

/-- The calls on a channel. -/
inductive ChannelCall
  | add
  | flags (call : FlagsCall)
  | cancel
  | channelCancel
  | close
  | destroy
  deriving DecidableEq

def call (s : EPollFdEventManager) (c : ℕ) (channel : Channel) : ChannelCall → EPollFdEventManager
  | .add => s.add c channel
  | .flags call => s.update c (call.flags channel)
  | .cancel => s.cancel c channel
  | .channelCancel => s.channelCancel c channel
  | .close => s.close c channel
  | .destroy => s.destroy c channel

/-- What the owners of channels do. -/
inductive Op
  /-- A channel is constructed with a descriptor that was not open. -/
  | make (fd : ℕ)
  | call (c : ℕ) (call : ChannelCall)
  deriving DecidableEq

/-- One call. -/
def step (s : EPollFdEventManager) (op : Op) : Option EPollFdEventManager :=
  if s.fault = none then
    match op with
    | .make fd =>
      if ∀ d ∈ s.objects, d.bind Channel.fd ≠ some fd then
        some { s with objects := s.objects ++ [some ⟨some fd, false, false⟩] }
      else none
    | .call c call => (s.object c).map fun channel => s.call c channel call
  else none

/-! ## Watched channels -/

/-- The channel is in the table at its descriptor. -/
def Watched (s : EPollFdEventManager) (c : ℕ) (channel : Channel) : Prop :=
  ∃ fd, channel.fd = some fd ∧ entry s.channels fd = some c

/-- Nothing has failed; the table has exactly the channels that the kernel reports, each at its own
descriptor; and the kernel waits for what their flags say. -/
structure Sound (s : EPollFdEventManager) : Prop where
  fault : s.fault = none
  agree : ∀ fd, entry s.channels fd = (s.interest fd).map Interest.ptr
  flags : ∀ fd event, s.interest fd = some event →
    s.object event.ptr = some ⟨some fd, event.reading, event.writing⟩

/-- What a call on a channel needs. -/
def Needs (s : EPollFdEventManager) (c : ℕ) (channel : Channel) : ChannelCall → Prop
  | .add => ∃ i, channel.fd = some i ∧ entry s.channels i = none ∧ (s.channels.length ≤ i → i * 2 < 2^31)
  | .flags _ | .cancel => s.Watched c channel
  | .channelCancel => s.Watched c channel ∧ channel.reading = false ∧ channel.writing = false
  | .close => channel.fd ≠ none ∧ ¬ s.Watched c channel
  | .destroy => ¬ s.Watched c channel

/-- What the owners are to keep to. -/
def Orderly (s : EPollFdEventManager) : Op → Prop
  | .make _ => True
  | .call c call => ∀ channel, s.object c = some channel → s.Needs c channel call

/-! ## The vector -/

variable {channels : List (Option ℕ)} {i j c : ℕ} {x : Option ℕ}

theorem entry_resized : entry (resized channels i) j = entry channels j := by
  unfold resized
  split_ifs with hlength
  · unfold entry
    by_cases hj : j < channels.length
    · rw [List.getElem?_append_left hj]
    · have hle := Nat.le_of_not_lt hj
      rw [List.getElem?_append_right hle, List.getElem?_eq_none hle, List.getElem?_replicate]
      split_ifs <;> rfl
  · rfl

theorem lt_length_resized (h : 0 < channels.length) : i < (resized channels i).length := by
  unfold resized
  split_ifs with hlength
  · rw [List.length_append, List.length_replicate]
    omega
  · exact Nat.lt_of_not_le hlength

theorem entry_set_self (h : i < channels.length) : entry (channels.set i x) i = x := by
  unfold entry
  rw [List.getElem?_set_self h, Option.join_some]

theorem entry_set_of_ne (h : j ≠ i) : entry (channels.set i x) j = entry channels j := by
  unfold entry
  rw [List.getElem?_set_ne h.symm]

theorem lt_length_of_entry (h : entry channels i = some c) : i < channels.length := by
  by_contra hle
  unfold entry at h
  rw [List.getElem?_eq_none (Nat.le_of_not_lt hle)] at h
  cases h

/-! ## The invariant -/

variable {s t : EPollFdEventManager} {channel other : Channel} {fd p : ℕ} {event : Interest}

/-- No two channels have one descriptor. -/
structure Inv (s : EPollFdEventManager) : Prop where
  sound : Sound s
  owners : ∃ o : Owners ℕ, o.Holds Channel.fd s.objects
  length : 0 < s.channels.length

theorem inv_initial : Inv initial := by
  refine ⟨⟨rfl, fun fd => ?_, fun _ _ h => nomatch h⟩, ⟨_, Owners.holds_empty⟩, ?_⟩
  · show entry (.replicate 1024 none) fd = none
    unfold entry
    rw [List.getElem?_replicate]
    split_ifs <;> rfl
  · show 0 < (List.replicate 1024 (none : Option ℕ)).length
    rw [List.length_replicate]
    exact Nat.succ_pos _

theorem object_eq_some_iff : s.object c = some channel ↔ s.objects[c]? = some (some channel) := by
  unfold object
  rw [Option.join_eq_some_iff]

theorem object_setObject_self (h : s.object c = some channel) (x : Option Channel) :
    (s.setObject c x).object c = x := by
  obtain ⟨hlt, -⟩ := List.getElem?_eq_some_iff.mp (object_eq_some_iff.mp h)
  show (s.objects.set c x)[c]?.join = x
  rw [List.getElem?_set_self hlt, Option.join_some]

theorem object_setObject_of_ne (h : p ≠ c) (x : Option Channel) :
    (s.setObject c x).object p = s.object p := by
  show (s.objects.set c x)[p]?.join = _
  rw [List.getElem?_set_ne h.symm]
  rfl

theorem not_sound_fail (fault : WatchFault) : ¬ Sound (s.fail fault) := fun h => nomatch h.fault

theorem Inv.unique (h : Inv s) (hc : s.object c = some channel) (hp : s.object p = some other)
    (hfd : channel.fd = some fd) (hfd' : other.fd = some fd) : c = p := by
  obtain ⟨o, ho⟩ := h.owners
  have hplace := ho.place (object_eq_some_iff.mp hc)
  have hplace' := ho.place (object_eq_some_iff.mp hp)
  rw [Option.bind_some, hfd] at hplace
  rw [Option.bind_some, hfd'] at hplace'
  exact Owners.place_unique hplace hplace'

/-- The kernel waits for a channel of this program. -/
theorem Inv.ptr (h : Inv s) (hc : s.object c = some channel) (hfd : channel.fd = some fd)
    (hevent : s.interest fd = some event) : event.ptr = c :=
  h.unique (h.sound.flags fd event hevent) hc rfl hfd

theorem Inv.watched_iff (h : Inv s) (hc : s.object c = some channel) :
    s.Watched c channel ↔ ∃ fd event, channel.fd = some fd ∧ s.interest fd = some event := by
  constructor
  · rintro ⟨fd, hfd, hentry⟩
    rw [h.sound.agree] at hentry
    obtain ⟨event, hevent, -⟩ := Option.map_eq_some_iff.mp hentry
    exact ⟨fd, event, hfd, hevent⟩
  · rintro ⟨fd, event, hfd, hevent⟩
    refine ⟨fd, hfd, ?_⟩
    rw [h.sound.agree, hevent, Option.map_some, h.ptr hc hfd hevent]

/-- A channel that the kernel waits for elsewhere is another one. -/
theorem Inv.ptr_ne (h : Inv s) (hc : s.object c = some channel) (hfd : channel.fd ≠ some fd)
    (hevent : s.interest fd = some event) : event.ptr ≠ c := by
  rintro rfl
  have hobject := h.sound.flags fd event hevent
  rw [hc] at hobject
  exact hfd (congrArg Channel.fd (Option.some.inj hobject))

/-! ## Steps -/

/-- The vector and the list of the kernel change in one place. -/
theorem Sound.update {x : Option Interest} {objects : List (Option Channel)} (h : Sound s)
    (hself : entry channels i = x.map Interest.ptr)
    (hothers : ∀ j, j ≠ i → entry channels j = entry s.channels j)
    (hflags : ∀ event, x = some event → objects[event.ptr]?.join =
      some ⟨some i, event.reading, event.writing⟩)
    (hobjects : ∀ j event, j ≠ i → s.interest j = some event →
      objects[event.ptr]?.join = s.object event.ptr) :
    Sound ⟨objects, channels, Function.update s.interest i x, s.fault⟩ := by
  refine ⟨h.fault, fun j => ?_, fun j event hevent => ?_⟩
  · show entry channels j = (Function.update s.interest i x j).map Interest.ptr
    by_cases hj : j = i
    · rw [hj, Function.update_self]
      exact hself
    · rw [Function.update_of_ne hj, hothers j hj]
      exact h.agree j
  · change Function.update s.interest i x j = some event at hevent
    by_cases hj : j = i
    · subst hj
      rw [Function.update_self] at hevent
      exact hflags event hevent
    · rw [Function.update_of_ne hj] at hevent
      exact (hobjects j event hj hevent).trans (h.flags j event hevent)

theorem Inv.make (h : Inv s) (hfresh : ∀ d ∈ s.objects, d.bind Channel.fd ≠ some fd) :
    Inv { s with objects := s.objects ++ [some ⟨some fd, false, false⟩] } := by
  obtain ⟨o, ho⟩ := h.owners
  have hlive : fd ∉ o.live := by
    rw [ho.live.mem_iff, List.reduceOption_mem_iff]
    intro hmem
    obtain ⟨d, hd, hheld⟩ := List.mem_map.mp hmem
    exact hfresh d hd hheld
  obtain ⟨o', ho', -⟩ := ho.push (d := some ⟨some fd, false, false⟩) rfl hlive
  refine ⟨⟨h.sound.fault, h.sound.agree, fun i event hevent => ?_⟩, ⟨o', ho'⟩, h.length⟩
  have hobject := object_eq_some_iff.mp (h.sound.flags i event hevent)
  obtain ⟨hlt, -⟩ := List.getElem?_eq_some_iff.mp hobject
  exact object_eq_some_iff.mpr ((List.getElem?_append_left hlt).trans hobject)

theorem Inv.add (h : Inv s) (hc : s.object c = some channel) (hneeds : s.Needs c channel .add) :
    Inv (s.add c channel) := by
  obtain ⟨i, hfd, hentry, hbound⟩ := hneeds
  have hnone : s.interest i = none := by
    have hagree := h.sound.agree i
    rw [hentry] at hagree
    exact Option.map_eq_none_iff.mp hagree.symm
  have hadd : s.add c channel =
      { s with
        channels := (resized s.channels i).set i (some c)
        interest := Function.update s.interest i (some ⟨channel.reading, channel.writing, c⟩) } := by
    have hfits : ¬ (s.channels.length ≤ i ∧ 2^31 ≤ i * 2) := fun hnot =>
      absurd (hbound hnot.1) (Nat.not_lt.mpr hnot.2)
    unfold EPollFdEventManager.add
    rw [hfd]
    dsimp only
    rw [if_neg hfits, if_neg (not_not_intro (entry_resized.trans hentry))]
    unfold epollCtl
    dsimp only
    rw [hnone]
  have hlength : i < (resized s.channels i).length := lt_length_resized h.length
  rw [hadd]
  refine ⟨h.sound.update (entry_set_self hlength) (fun j hj => ?_) ?_ (fun _ _ _ _ => rfl), h.owners, ?_⟩
  · rw [entry_set_of_ne hj, entry_resized]
  · intro event hevent
    cases hevent
    show s.object c = _
    rw [← hfd]
    exact hc
  · show 0 < ((resized s.channels i).set i (some c)).length
    rw [List.length_set]
    exact Nat.lt_of_le_of_lt (Nat.zero_le i) hlength

theorem needs_of_sound_add (hsound : Sound (s.add c channel)) : s.Needs c channel .add := by
  unfold EPollFdEventManager.add at hsound
  split at hsound
  · exact absurd hsound (not_sound_fail _)
  · rename_i i hfd
    by_cases hoverflow : s.channels.length ≤ i ∧ 2^31 ≤ i * 2
    · rw [if_pos hoverflow] at hsound
      exact absurd hsound (not_sound_fail _)
    · rw [if_neg hoverflow] at hsound
      dsimp only at hsound
      by_cases hentry : entry (resized s.channels i) i = none
      · refine ⟨i, hfd, entry_resized.symm.trans hentry, fun hlength => ?_⟩
        exact Nat.lt_of_not_le fun hle => hoverflow ⟨hlength, hle⟩
      · rw [if_pos hentry] at hsound
        exact absurd hsound (not_sound_fail _)

/-- The flags of a watched channel change. -/
theorem Inv.update (h : Inv s) (hc : s.object c = some channel) (hfd : other.fd = channel.fd)
    (hwatched : s.Watched c channel) : Inv (s.update c other) := by
  obtain ⟨fd, hsome, hentry⟩ := hwatched
  obtain ⟨event, hevent, -⟩ := Option.map_eq_some_iff.mp ((h.sound.agree fd).symm.trans hentry)
  have hupdate : s.update c other =
      ⟨s.objects.set c (some other), s.channels,
        Function.update s.interest fd (some ⟨other.reading, other.writing, c⟩), s.fault⟩ := by
    unfold EPollFdEventManager.update
    dsimp only
    rw [hfd, hsome]
    unfold epollCtl setObject
    dsimp only
    rw [hevent]
  rw [hupdate]
  refine ⟨h.sound.update hentry (fun _ _ => rfl) ?_ (fun j event hj hevent => ?_), ?_, h.length⟩
  · intro event hevent
    cases hevent
    have hself := object_setObject_self hc (some other)
    rw [← hsome, ← hfd]
    exact hself
  · refine object_setObject_of_ne (h.ptr_ne hc ?_ hevent) (some other)
    rw [hsome]
    exact fun hsame => hj (Option.some.inj hsame).symm
  · obtain ⟨o, ho⟩ := h.owners
    exact ⟨o, ho.keep (object_eq_some_iff.mp hc) hfd⟩

theorem Inv.watched_of_sound_update (h : Inv s) (hc : s.object c = some channel) (hfd : other.fd = channel.fd)
    (hsound : Sound (s.update c other)) : s.Watched c channel := by
  refine (h.watched_iff hc).mpr ?_
  unfold EPollFdEventManager.update at hsound
  dsimp only at hsound
  rw [hfd] at hsound
  split at hsound
  · exact absurd hsound (not_sound_fail _)
  · rename_i fd hsome
    refine ⟨fd, ?_⟩
    cases hevent : s.interest fd with
    | some event => exact ⟨event, hsome, rfl⟩
    | none =>
      unfold epollCtl setObject at hsound
      dsimp only at hsound
      rw [hevent] at hsound
      exact absurd hsound (not_sound_fail _)

theorem Inv.cancel (h : Inv s) (hwatched : s.Watched c channel) : Inv (s.cancel c channel) := by
  obtain ⟨fd, hsome, hentry⟩ := hwatched
  obtain ⟨event, hevent, -⟩ := Option.map_eq_some_iff.mp ((h.sound.agree fd).symm.trans hentry)
  have hlength := lt_length_of_entry hentry
  have hcancel : s.cancel c channel =
      ⟨s.objects, s.channels.set fd none, Function.update s.interest fd none, s.fault⟩ := by
    have hctl : s.epollCtl .del c fd channel = { s with interest := Function.update s.interest fd none } := by
      unfold epollCtl
      dsimp only
      rw [hevent]
    have hrunning : ¬ s.fault.isSome = true := Option.not_isSome_iff_eq_none.mpr h.sound.fault
    unfold EPollFdEventManager.cancel
    rw [hsome]
    dsimp only
    rw [hctl]
    dsimp only
    rw [if_neg hrunning, if_neg (hentry ▸ Option.some_ne_none c)]
  rw [hcancel]
  refine ⟨h.sound.update (entry_set_self hlength) (fun j hj => entry_set_of_ne hj) (fun _ hx => nomatch hx)
    (fun _ _ _ _ => rfl), h.owners, ?_⟩
  show 0 < (s.channels.set fd none).length
  rw [List.length_set]
  exact h.length

theorem Inv.watched_of_sound_cancel (h : Inv s) (hc : s.object c = some channel)
    (hsound : Sound (s.cancel c channel)) : s.Watched c channel := by
  refine (h.watched_iff hc).mpr ?_
  unfold EPollFdEventManager.cancel at hsound
  split at hsound
  · exact absurd hsound (not_sound_fail _)
  · rename_i fd hsome
    refine ⟨fd, ?_⟩
    cases hevent : s.interest fd with
    | some event => exact ⟨event, hsome, rfl⟩
    | none =>
      have hctl : s.epollCtl .del c fd channel = s.fail .ctl := by
        unfold epollCtl
        dsimp only
        rw [hevent]
      rw [hctl] at hsound
      exact absurd hsound (not_sound_fail _)

/-- A channel that is not watched loses its descriptor, or is destroyed. -/
theorem Inv.lose (h : Inv s) (hc : s.object c = some channel) (hnot : ¬ s.Watched c channel)
    {d : Option Channel}
    (hd : d.bind Channel.fd = none) : Inv ((s.closeFd channel.fd).setObject c d) := by
  have hclosed : s.closeFd channel.fd = s := by
    unfold closeFd
    split
    · rfl
    · rename_i fd hsome
      have hnone : s.interest fd = none := by
        by_contra hne
        obtain ⟨event, hevent⟩ := Option.ne_none_iff_exists'.mp hne
        exact hnot ((h.watched_iff hc).mpr ⟨fd, event, hsome, hevent⟩)
      rw [← hnone, Function.update_eq_self]
  rw [hclosed]
  refine ⟨⟨h.sound.fault, h.sound.agree, fun fd event hevent => ?_⟩, ?_, h.length⟩
  · have hne : event.ptr ≠ c := by
      refine h.ptr_ne hc (fun hsome => hnot ((h.watched_iff hc).mpr ⟨fd, event, hsome, hevent⟩)) hevent
    exact (object_setObject_of_ne hne d).trans (h.sound.flags fd event hevent)
  · obtain ⟨o, ho⟩ := h.owners
    have hobject := object_eq_some_iff.mp hc
    cases hsome : channel.fd with
    | none => exact ⟨o, ho.keep hobject (hd.trans hsome.symm)⟩
    | some fd =>
      obtain ⟨o', ho', -⟩ := ho.release hobject hsome hd
      exact ⟨o', ho'⟩

/-- The table keeps a watched channel that is gone. -/
theorem not_watched_of_sound_lose {d : Option Channel}
    (hsound : Sound ((s.closeFd channel.fd).setObject c d)) :
    ¬ s.Watched c channel := by
  rintro ⟨fd, hsome, hentry⟩
  have hagree := hsound.agree fd
  rw [hsome] at hagree
  change entry s.channels fd = (Function.update s.interest fd none fd).map Interest.ptr at hagree
  rw [Function.update_self, hentry] at hagree
  cases hagree

theorem fd_flags (call : FlagsCall) : (call.flags channel).fd = channel.fd := by
  cases call <;> rfl

theorem Inv.close (h : Inv s) (hc : s.object c = some channel) :
    (s.Needs c channel .close → Inv (s.close c channel)) ∧
      (Sound (s.close c channel) → s.Needs c channel .close) := by
  unfold EPollFdEventManager.close
  by_cases hfd : channel.fd = none
  · rw [if_pos hfd]
    exact ⟨fun hneeds => absurd hfd hneeds.1, fun hsound => absurd hsound (not_sound_fail _)⟩
  · rw [if_neg hfd]
    exact ⟨fun hneeds => h.lose hc hneeds.2 rfl, fun hsound => ⟨hfd, not_watched_of_sound_lose hsound⟩⟩

theorem Inv.channelCancel (h : Inv s) (hc : s.object c = some channel) :
    (s.Needs c channel .channelCancel → Inv (s.channelCancel c channel)) ∧
      (Sound (s.channelCancel c channel) → s.Needs c channel .channelCancel) := by
  unfold EPollFdEventManager.channelCancel
  by_cases hflags : channel.reading = true ∨ channel.writing = true
  · rw [if_pos hflags]
    refine ⟨fun ⟨_, hreading, hwriting⟩ => ?_, fun hsound => absurd hsound (not_sound_fail _)⟩
    rcases hflags with hset | hset
    · exact absurd (hreading.symm.trans hset) Bool.false_ne_true
    · exact absurd (hwriting.symm.trans hset) Bool.false_ne_true
  · rw [if_neg hflags]
    obtain ⟨hreading, hwriting⟩ := not_or.mp hflags
    exact ⟨fun hneeds => h.cancel hneeds.1, fun hsound =>
      ⟨h.watched_of_sound_cancel hc hsound, Bool.eq_false_iff.mpr hreading,
        Bool.eq_false_iff.mpr hwriting⟩⟩

/-- A call on a channel keeps the invariant if it has what it needs, and only then. -/
theorem Inv.call (h : Inv s) (hc : s.object c = some channel) (call : ChannelCall) :
    (s.Needs c channel call → Inv (s.call c channel call)) ∧
      (Sound (s.call c channel call) → s.Needs c channel call) := by
  cases call with
  | add => exact ⟨h.add hc, needs_of_sound_add⟩
  | flags call => exact ⟨h.update hc (fd_flags call), h.watched_of_sound_update hc (fd_flags call)⟩
  | cancel => exact ⟨h.cancel, h.watched_of_sound_cancel hc⟩
  | channelCancel => exact h.channelCancel hc
  | close => exact h.close hc
  | destroy => exact ⟨fun hnot => h.lose hc hnot rfl, not_watched_of_sound_lose⟩

theorem Inv.step {op : Op} (h : Inv s) (hs : s.step op = some t) :
    (Sound t ↔ s.Orderly op) ∧ (s.Orderly op → Inv t) := by
  suffices hboth : (s.Orderly op → Inv t) ∧ (Sound t → s.Orderly op) from
    ⟨⟨hboth.2, fun horderly => (hboth.1 horderly).sound⟩, hboth.1⟩
  obtain ⟨-, hs⟩ := Option.ite_none_right_eq_some.mp hs
  cases op with
  | make fd =>
    obtain ⟨hfresh, hmade⟩ := Option.ite_none_right_eq_some.mp hs
    cases hmade
    exact ⟨fun _ => h.make hfresh, fun _ => trivial⟩
  | call c call =>
    obtain ⟨channel, hc, rfl⟩ := Option.map_eq_some_iff.mp hs
    obtain ⟨hkeeps, hneeds⟩ := h.call hc call
    refine ⟨fun horderly => hkeeps (horderly channel hc), fun hsound other hother => ?_⟩
    cases hc.symm.trans hother
    exact hneeds hsound

/-- The three agree, and nothing fails, in exactly the runs in which the calls have what they need. -/
theorem sound_iff_orderly (ops : List Op) :
    Machine.Always step Sound initial ops ↔ Machine.Meets step Orderly initial ops :=
  Machine.always_iff_meets (I := Inv) (D := fun _ _ => True) (fun _ h => h.sound)
    (fun _ _ _ h _ hs => h.step hs)
    inv_initial (Machine.meets_of_labels fun _ _ => trivial)

/-- A connection is watched, written to and cancelled, and its descriptor given to the next one. -/
example : (Machine.run step initial [.make 1500, .call 0 .add, .call 0 (.flags .enableReading),
    .call 0 (.flags .disableAll), .call 0 .channelCancel, .call 0 .destroy, .make 1500, .call 1 .add]).map
      (fun s => (s.channels.length, s.interest 1500, s.fault)) =
    some (3000, some ⟨false, false, 1⟩, none) := by
  decide +kernel

end EPollFdEventManager

end Hulatang
