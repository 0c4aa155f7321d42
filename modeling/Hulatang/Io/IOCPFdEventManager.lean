import Mathlib.Data.List.Perm.Subperm
import Mathlib.Logic.Function.Basic
import Mathlib.Tactic.SplitIfs
import Hulatang.Lib.Machine

/-!
# Completions on the IOCP loop

A channel is entered in `channels` at its handle value, which is also the key of its completion packets,
and keeps the `Over`s of its pending operations in a list. `process` dequeues a packet, looks its key up,
and takes the packet's `Over` out of the list of the channel that is there now.

`cancel` takes the channel out of `channels` and asks for its operations to be cancelled; what the kernel
has of them completes later, with any status, and what has completed stays in the queue. The channel's
handle is closed after that, and its value is free for the next channel. So the packets of a channel that
is gone find the next one, unless they are all gone when it is added (`matched_iff_addsClean`).

`Over`s are named by numbers, as the source names them by addresses.
-/

namespace Hulatang

/-- How an operation has completed: `ERROR_OPERATION_ABORTED`, or with another error. -/
inductive CompletionStatus
  | success
  | aborted
  | failed
  deriving DecidableEq

/-- What is queued on the port. -/
inductive Packet
  /-- `PostQueuedCompletionStatus` with `WAKEUP_NUMBER`. -/
  | wakeup
  | completion (key overlapped : ℕ) (status : CompletionStatus)
  deriving DecidableEq

/-- How `process` stops the program. -/
inductive Crash
  /-- The `abort` after the search. -/
  | abort
  /-- `over->next` of the first `Over` of an empty list. -/
  | nullDereference
  deriving DecidableEq

/-- The manager, the handles and the port. -/
structure IOCPFdEventManager where
  /-- The channels by their handle values, with their pending operations. -/
  channels : ℕ → Option (List ℕ)
  /-- Which handle values are in use. -/
  opened : ℕ → Bool
  /-- The operations that the kernel has, with the handle that they were posted on. -/
  outstanding : List (ℕ × ℕ)
  /-- The packets of the port, the first one first. -/
  queue : List Packet
  /-- The successful completions for a channel that had no such operation pending. -/
  strays : List (ℕ × ℕ)
  fault : Option Crash

namespace IOCPFdEventManager

/-- A manager without channels. -/
def initial : IOCPFdEventManager where
  channels := fun _ => none
  opened := fun _ => false
  outstanding := []
  queue := []
  strays := []
  fault := none

/-- The loop that searches the list after its first `Over`. -/
def unlinkAfter (overlapped : ℕ) : List ℕ → Option (List ℕ)
  | [] => none
  | first :: rest =>
    if first = overlapped then some rest else (unlinkAfter overlapped rest).map (first :: ·)

/-- What `process` does to the list of the channel. -/
def unlink (overlapped : ℕ) : List ℕ → Except Crash (List ℕ)
  | [] => .error .nullDereference
  | first :: rest =>
    if first = overlapped then .ok rest
    else
      match unlinkAfter overlapped rest with
      | some rest' => .ok (first :: rest')
      | none => .error .abort

/-- One turn of the loop of `process`, on a completion. -/
def dispatch (s : IOCPFdEventManager) (key overlapped : ℕ) (status : CompletionStatus) : IOCPFdEventManager :=
  if status = .aborted then s
  else
    match s.channels key with
    | none => s
    | some pending =>
      match unlink overlapped pending with
      -- The `Over` goes to `rover`, and the channel's handler is called.
      | .ok pending' => { s with channels := Function.update s.channels key (some pending') }
      | .error crash =>
        { s with
          strays := if status = .success then (key, overlapped) :: s.strays else s.strays
          fault := some crash }

/-- What the loop, the kernel and the owners of channels do. -/
inductive Op
  /-- An operation is posted: `addOver`, and the call that starts it, which may fail. -/
  | post (key overlapped : ℕ) (started : Bool)
  /-- The kernel completes an operation. -/
  | complete (key overlapped : ℕ) (status : CompletionStatus)
  | wakeup
  /-- `process` dequeues a packet. -/
  | dequeue
  | cancel (key : ℕ)
  /-- The channel is destroyed, and its handle closed. -/
  | close (key : ℕ)
  /-- A channel is added, whose handle has a value that is free. -/
  | add (key : ℕ)
  deriving DecidableEq

/-- One step, until the program is stopped. -/
def step (s : IOCPFdEventManager) (op : Op) : Option IOCPFdEventManager :=
  if s.fault.isSome then none
  else
    match op with
    | .post key overlapped started =>
      match s.channels key with
      | none => none
      | some pending =>
        if overlapped ∈ pending then none
        else
          some
            { s with
              channels := Function.update s.channels key (some (pending ++ [overlapped]))
              outstanding := if started then (key, overlapped) :: s.outstanding else s.outstanding }
    | .complete key overlapped status =>
      if (key, overlapped) ∈ s.outstanding then
        some
          { s with
            outstanding := s.outstanding.erase (key, overlapped)
            queue := s.queue ++ [.completion key overlapped status] }
      else none
    | .wakeup => some { s with queue := s.queue ++ [.wakeup] }
    | .dequeue =>
      match s.queue with
      | [] => none
      | .wakeup :: queue => some { s with queue := queue }
      | .completion key overlapped status :: queue =>
        some ({ s with queue := queue }.dispatch key overlapped status)
    | .cancel key =>
      if (s.channels key).isSome then some { s with channels := Function.update s.channels key none }
      else none
    | .close key =>
      if s.opened key ∧ s.channels key = none then
        some { s with opened := Function.update s.opened key false }
      else none
    | .add key =>
      if ¬ s.opened key ∧ s.channels key = none then
        some
          { s with
            channels := Function.update s.channels key (some [])
            opened := Function.update s.opened key true }
      else none

/-- Each successful completion for a channel has been one of its pending operations, and the program has
not been stopped. -/
structure Matched (s : IOCPFdEventManager) : Prop where
  strays : s.strays = []
  fault : s.fault = none

/-- The operation that a packet completes on the handle, unless it was cancelled. -/
def completes (key : ℕ) : Packet → Option ℕ
  | .wakeup => none
  | .completion key' overlapped status => if key' = key ∧ status ≠ .aborted then some overlapped else none

/-- The operations on the handle that are to complete, or have completed and were not cancelled. -/
def inFlight (s : IOCPFdEventManager) (key : ℕ) : List ℕ :=
  (s.outstanding.filter fun op => op.1 = key).map Prod.snd ++ s.queue.filterMap (completes key)

/-- A channel is added when nothing is in flight under the value of its handle. -/
def AddsClean (s : IOCPFdEventManager) : Op → Prop
  | .add key => s.inFlight key = []
  | _ => True

instance (s : IOCPFdEventManager) : DecidablePred s.AddsClean
  | .add key => inferInstanceAs (Decidable (s.inFlight key = []))
  | .post _ _ _ | .complete _ _ _ | .wakeup | .dequeue | .cancel _ | .close _ =>
    inferInstanceAs (Decidable True)

/-- The kernel completes operations and `process` dequeues packets. -/
def Completing : Op → Prop
  | .complete _ _ _ | .dequeue => True
  | _ => False

/-! ## Taking an operation off the list -/

theorem unlinkAfter_of_mem {overlapped : ℕ} {pending : List ℕ} (h : overlapped ∈ pending) :
    unlinkAfter overlapped pending = some (pending.erase overlapped) := by
  induction pending with
  | nil => cases h
  | cons first rest ih =>
    unfold unlinkAfter
    by_cases ho : first = overlapped
    · rw [if_pos ho, ho, List.erase_cons_head]
    · have hrest : overlapped ∈ rest := (List.mem_cons.mp h).resolve_left fun e => ho e.symm
      rw [if_neg ho, ih hrest, List.erase_cons_tail (by simpa using ho)]
      rfl

/-- An operation that is pending is taken off. -/
theorem unlink_of_mem {overlapped : ℕ} {pending : List ℕ} (h : overlapped ∈ pending) :
    unlink overlapped pending = .ok (pending.erase overlapped) := by
  cases pending with
  | nil => cases h
  | cons first rest =>
    unfold unlink
    dsimp only
    by_cases ho : first = overlapped
    · rw [if_pos ho, ho, List.erase_cons_head]
    · have hrest : overlapped ∈ rest := (List.mem_cons.mp h).resolve_left fun e => ho e.symm
      rw [if_neg ho, unlinkAfter_of_mem hrest, List.erase_cons_tail (by simpa using ho)]

/-! ## What one step can do -/

/-- The steps, guards included. -/
inductive Stepped (s : IOCPFdEventManager) : Op → IOCPFdEventManager → Prop
  | post (key overlapped : ℕ) (started : Bool) (pending : List ℕ) (hp : s.channels key = some pending) :
      Stepped s (.post key overlapped started)
        { s with
          channels := Function.update s.channels key (some (pending ++ [overlapped]))
          outstanding := if started then (key, overlapped) :: s.outstanding else s.outstanding }
  | complete (key overlapped : ℕ) (status : CompletionStatus) (ho : (key, overlapped) ∈ s.outstanding) :
      Stepped s (.complete key overlapped status)
        { s with
          outstanding := s.outstanding.erase (key, overlapped)
          queue := s.queue ++ [.completion key overlapped status] }
  | wakeup : Stepped s .wakeup { s with queue := s.queue ++ [.wakeup] }
  | awake (queue : List Packet) (hq : s.queue = .wakeup :: queue) :
      Stepped s .dequeue { s with queue := queue }
  | dequeue (key overlapped : ℕ) (status : CompletionStatus) (queue : List Packet)
      (hq : s.queue = .completion key overlapped status :: queue) :
      Stepped s .dequeue ({ s with queue := queue }.dispatch key overlapped status)
  | cancel (key : ℕ) : Stepped s (.cancel key) { s with channels := Function.update s.channels key none }
  | close (key : ℕ) : Stepped s (.close key) { s with opened := Function.update s.opened key false }
  | add (key : ℕ) :
      Stepped s (.add key)
        { s with
          channels := Function.update s.channels key (some [])
          opened := Function.update s.opened key true }

theorem stepped_of_step {s s' : IOCPFdEventManager} {op : Op} (h : s.step op = some s') :
    s.fault = none ∧ Stepped s op s' := by
  unfold step at h
  have hlive : ¬ s.fault.isSome := by
    intro hdead
    rw [if_pos hdead] at h
    cases h
  rw [if_neg hlive] at h
  refine ⟨Option.not_isSome_iff_eq_none.mp hlive, ?_⟩
  cases op with
  | post key overlapped started =>
    dsimp only at h
    split at h
    · cases h
    · rename_i pending hp
      by_cases hmem : overlapped ∈ pending
      · rw [if_pos hmem] at h
        cases h
      · rw [if_neg hmem] at h
        cases h
        exact .post key overlapped started pending hp
  | complete key overlapped status =>
    dsimp only at h
    split_ifs at h with ho
    cases h
    exact .complete key overlapped status ho
  | wakeup =>
    cases h
    exact .wakeup
  | dequeue =>
    dsimp only at h
    split at h
    · cases h
    · rename_i queue hq
      cases h
      exact .awake queue hq
    · rename_i key overlapped status queue hq
      cases h
      exact .dequeue key overlapped status queue hq
  | cancel key =>
    dsimp only at h
    split_ifs at h
    cases h
    exact .cancel key
  | close key =>
    dsimp only at h
    split_ifs at h
    cases h
    exact .close key
  | add key =>
    dsimp only at h
    split_ifs at h
    cases h
    exact .add key

/-- Handling a completion leaves the queue. -/
theorem queue_dispatch (s : IOCPFdEventManager) (key overlapped : ℕ) (status : CompletionStatus) :
    (s.dispatch key overlapped status).queue = s.queue := by
  unfold dispatch
  by_cases haborted : status = .aborted
  · rw [if_pos haborted]
  · rw [if_neg haborted]
    cases s.channels key with
    | none => rfl
    | some pending =>
      dsimp only
      cases unlink overlapped pending <;> rfl

/-- Packets are only taken by `process`. -/
theorem queue_grows {s s' : IOCPFdEventManager} {op : Op} (h : s.step op = some s') (hop : op ≠ .dequeue) :
    s.queue <+: s'.queue ∧ s'.fault = s.fault := by
  cases (stepped_of_step h).2 with
  | awake | dequeue => exact absurd rfl hop
  | complete | wakeup => exact ⟨List.prefix_append _ _, rfl⟩
  | post | cancel | close | add => exact ⟨List.prefix_refl _, rfl⟩

/-! ## What is in flight -/

/-- A posted operation is in flight on its handle. -/
theorem inFlight_post (s : IOCPFdEventManager) (key key' overlapped : ℕ) :
    { s with outstanding := (key, overlapped) :: s.outstanding }.inFlight key' =
      if key = key' then overlapped :: s.inFlight key' else s.inFlight key' := by
  unfold inFlight
  dsimp only
  by_cases hk : key = key'
  · rw [if_pos hk, List.filter_cons_of_pos (by simpa using hk), List.map_cons, List.cons_append]
  · rw [if_neg hk, List.filter_cons_of_neg (by simpa using hk)]

/-- A completion leaves what is in flight, less the operation if it was cancelled. -/
theorem inFlight_complete {s : IOCPFdEventManager} {key overlapped : ℕ} (status : CompletionStatus)
    (ho : (key, overlapped) ∈ s.outstanding) (key' : ℕ) :
    ({ s with
        outstanding := s.outstanding.erase (key, overlapped)
        queue := s.queue ++ [Packet.completion key overlapped status] }.inFlight key').Subperm
      (s.inFlight key') := by
  have hperm : s.outstanding.Perm ((key, overlapped) :: s.outstanding.erase (key, overlapped)) :=
    List.perm_cons_erase ho
  have hout := (hperm.filter fun op => op.1 = key').map Prod.snd
  unfold inFlight
  dsimp only
  rw [List.filterMap_append]
  by_cases hk : key = key'
  · -- The operation leaves the kernel, and its packet joins the queue.
    rw [List.filter_cons_of_pos (by simpa using hk), List.map_cons] at hout
    have hwhole := hout.append_right (s.queue.filterMap (completes key'))
    by_cases hstatus : status = .aborted
    · have hnone : [Packet.completion key overlapped status].filterMap (completes key') = [] := by
        simp [completes, hstatus]
      rw [hnone, List.append_nil]
      exact (List.sublist_cons_self overlapped _).subperm.trans hwhole.symm.subperm
    · have hone : [Packet.completion key overlapped status].filterMap (completes key') = [overlapped] := by
        simp [completes, hk, hstatus]
      rw [hone, ← List.append_assoc]
      exact (List.perm_append_singleton overlapped _).subperm.trans hwhole.symm.subperm
  · have hnone : [Packet.completion key overlapped status].filterMap (completes key') = [] := by
      simp [completes, hk]
    rw [List.filter_cons_of_neg (by simpa using hk)] at hout
    rw [hnone, List.append_nil]
    exact (hout.symm.append_right _).subperm

/-- A packet that is dequeued was in flight on its handle, unless it was cancelled. -/
theorem inFlight_dequeue {s : IOCPFdEventManager} {p : Packet} {queue : List Packet}
    (hq : s.queue = p :: queue) (key : ℕ) :
    (s.inFlight key).Perm ((completes key p).toList ++ { s with queue := queue }.inFlight key) := by
  unfold inFlight
  dsimp only
  rw [hq, List.filterMap_cons]
  cases completes key p with
  | none => exact List.Perm.refl _
  | some overlapped => exact List.perm_middle

/-! ## Every step -/

/-- What is in flight on the handle of a channel is pending there. -/
structure Inv (s : IOCPFdEventManager) : Prop where
  matched : Matched s
  pending : ∀ key pending, s.channels key = some pending → (s.inFlight key).Subperm pending

theorem inv_initial : Inv initial := ⟨⟨rfl, rfl⟩, nofun⟩

/-- A step that leaves the channels alone, and puts nothing more in flight. -/
theorem Inv.of_subperm {s s' : IOCPFdEventManager} (h : Inv s) (hmatched : Matched s')
    (hchannels : s'.channels = s.channels) (hflight : ∀ key, (s'.inFlight key).Subperm (s.inFlight key)) :
    Inv s' :=
  ⟨hmatched, fun key pending hp => (hflight key).trans (h.pending key pending (hchannels ▸ hp))⟩

/-- An operation is pending from when it is posted. -/
theorem Inv.post {s : IOCPFdEventManager} (h : Inv s) {key : ℕ} (overlapped : ℕ) (started : Bool)
    {pending : List ℕ} (hp : s.channels key = some pending) :
    Inv { s with
      channels := Function.update s.channels key (some (pending ++ [overlapped]))
      outstanding := if started then (key, overlapped) :: s.outstanding else s.outstanding } := by
  refine ⟨⟨h.matched.strays, h.matched.fault⟩, fun key' pending' hp' => ?_⟩
  have hcons : (overlapped :: pending).Perm (pending ++ [overlapped]) :=
    (List.perm_append_singleton overlapped pending).symm
  have hflight : ({ s with
      channels := Function.update s.channels key (some (pending ++ [overlapped]))
      outstanding := if started then (key, overlapped) :: s.outstanding else s.outstanding }).inFlight key' =
        if started ∧ key = key' then overlapped :: s.inFlight key' else s.inFlight key' := by
    cases started with
    | false => rfl
    | true => exact (s.inFlight_post key key' overlapped).trans (by simp)
  rw [hflight]
  dsimp only at hp'
  by_cases hk : key' = key
  · subst hk
    rw [Function.update_self] at hp'
    obtain rfl : pending ++ [overlapped] = pending' := Option.some.inj hp'
    have hbefore := h.pending key' pending hp
    split_ifs
    · exact ((List.subperm_cons overlapped).mpr hbefore).trans hcons.subperm
    · exact (hbefore.trans (List.sublist_cons_self overlapped pending).subperm).trans hcons.subperm
  · rw [Function.update_of_ne hk] at hp'
    rw [if_neg fun hboth => hk hboth.2.symm]
    exact h.pending key' pending' hp'

/-- A completion that is dequeued is pending, and is not in flight any more. -/
theorem Inv.dequeue {s : IOCPFdEventManager} (h : Inv s) {key overlapped : ℕ} {status : CompletionStatus}
    {queue : List Packet} (hq : s.queue = .completion key overlapped status :: queue) :
    Inv ({ s with queue := queue }.dispatch key overlapped status) := by
  have hflight := inFlight_dequeue hq
  have hless : ∀ key', ({ s with queue := queue }.inFlight key').Subperm (s.inFlight key') := fun key' =>
    (List.sublist_append_right _ _).subperm.trans (hflight key').symm.subperm
  have hmatched : Matched { s with queue := queue } := ⟨h.matched.strays, h.matched.fault⟩
  unfold dispatch
  by_cases haborted : status = .aborted
  · rw [if_pos haborted]
    exact h.of_subperm hmatched rfl hless
  rw [if_neg haborted]
  dsimp only
  cases hp : s.channels key with
  -- A channel that is gone: the packet is dropped.
  | none => exact h.of_subperm hmatched rfl hless
  | some pending =>
    have hhere := hflight key
    have hone : (completes key (.completion key overlapped status)).toList = [overlapped] := by
      simp [completes, haborted]
    rw [hone, List.singleton_append] at hhere
    have hsub : (overlapped :: { s with queue := queue }.inFlight key).Subperm pending :=
      hhere.symm.subperm.trans (h.pending key pending hp)
    -- What is in flight is pending, so the search finds the operation.
    have hmem : overlapped ∈ pending := hsub.subset List.mem_cons_self
    dsimp only
    rw [unlink_of_mem hmem]
    refine ⟨⟨h.matched.strays, h.matched.fault⟩, fun key' pending' hp' => ?_⟩
    dsimp only at hp'
    by_cases hk : key' = key
    · subst hk
      rw [Function.update_self] at hp'
      obtain rfl : pending.erase overlapped = pending' := Option.some.inj hp'
      have herase := hsub.erase overlapped
      rw [List.erase_cons_head] at herase
      exact herase
    · rw [Function.update_of_ne hk] at hp'
      exact (hless key').trans (h.pending key' pending' hp')

theorem Inv.step {s s' : IOCPFdEventManager} {op : Op} (h : Inv s) (hg : s.AddsClean op)
    (hs : Stepped s op s') : Inv s' := by
  cases hs with
  | post key overlapped started pending hp => exact h.post overlapped started hp
  | complete key overlapped status ho =>
    exact h.of_subperm ⟨h.matched.strays, h.matched.fault⟩ rfl fun key' => inFlight_complete status ho key'
  | wakeup =>
    refine h.of_subperm ⟨h.matched.strays, h.matched.fault⟩ rfl fun key' => ?_
    unfold inFlight
    dsimp only
    have hnone : [Packet.wakeup].filterMap (completes key') = [] := rfl
    rw [List.filterMap_append, hnone, List.append_nil]
  | awake queue hq =>
    refine h.of_subperm ⟨h.matched.strays, h.matched.fault⟩ rfl fun key' => ?_
    exact (List.sublist_append_right _ _).subperm.trans (inFlight_dequeue hq key').symm.subperm
  | dequeue key overlapped status queue hq => exact h.dequeue hq
  | cancel key =>
    -- What is in flight on the handle stays so, but no channel is found under it.
    refine ⟨⟨h.matched.strays, h.matched.fault⟩, fun key' pending' hp' => ?_⟩
    dsimp only at hp'
    by_cases hk : key' = key
    · rw [hk, Function.update_self] at hp'
      cases hp'
    · rw [Function.update_of_ne hk] at hp'
      exact h.pending key' pending' hp'
  | close key => exact ⟨⟨h.matched.strays, h.matched.fault⟩, h.pending⟩
  | add key =>
    refine ⟨⟨h.matched.strays, h.matched.fault⟩, fun key' pending' hp' => ?_⟩
    dsimp only at hp'
    by_cases hk : key' = key
    · -- The new channel has nothing pending.
      subst hk
      have hnil : s.inFlight key' = [] := hg
      show (s.inFlight key').Subperm pending'
      rw [hnil]
      exact List.nil_subperm
    · rw [Function.update_of_ne hk] at hp'
      exact h.pending key' pending' hp'

/-! ## A channel that is added too early -/

/-- The kernel and `process` come to a completion that finds no operation. -/
abbrev Breaks (s : IOCPFdEventManager) : Prop := Machine.Breaks step Matched Completing s

/-- Handling a completion leaves the channels under other keys. -/
theorem channels_dispatch (s : IOCPFdEventManager) {key key' : ℕ} (overlapped : ℕ) {status : CompletionStatus}
    (hk : ¬ (key' = key ∧ status ≠ .aborted)) :
    (s.dispatch key' overlapped status).channels key = s.channels key := by
  unfold dispatch
  by_cases haborted : status = .aborted
  · rw [if_pos haborted]
  have hne : key ≠ key' := fun e => hk ⟨e.symm, haborted⟩
  rw [if_neg haborted]
  cases s.channels key' with
  | none => rfl
  | some pending =>
    dsimp only
    cases unlink overlapped pending with
    | error crash => rfl
    | ok pending' => exact Function.update_of_ne hne _ _

/-- A completion for a channel with nothing pending stops the program. -/
theorem dispatch_fault {s : IOCPFdEventManager} {key : ℕ} (hp : s.channels key = some []) (overlapped : ℕ)
    {status : CompletionStatus} (hstatus : status ≠ .aborted) :
    (s.dispatch key overlapped status).fault = some .nullDereference := by
  unfold dispatch
  rw [if_neg hstatus, hp]
  rfl

/-- `process` comes to a completion that is queued for a channel with nothing pending. -/
theorem breaks_of_queued {s : IOCPFdEventManager} {key : ℕ} (hp : s.channels key = some [])
    (hflight : s.queue.filterMap (completes key) ≠ []) : Breaks s := by
  generalize hqueue : s.queue = queue at hflight
  induction queue generalizing s with
  | nil => exact absurd rfl hflight
  | cons p queue ih =>
    by_cases hfault : s.fault = none
    case neg => exact Machine.breaks_of_not fun h => hfault h.fault
    case pos =>
      have hdequeue : Completing .dequeue := trivial
      have hsome : ¬ s.fault.isSome := by simp [hfault]
      cases p with
      | wakeup =>
        have hs : s.step .dequeue = some { s with queue := queue } := by
          simp only [step, if_neg hsome, hqueue]
        exact .of_step hdequeue hs (ih hp rfl hflight)
      | completion key' overlapped status =>
        have hs : s.step .dequeue = some ({ s with queue := queue }.dispatch key' overlapped status) := by
          simp only [step, if_neg hsome, hqueue]
        refine .of_step hdequeue hs ?_
        by_cases hk : key' = key ∧ status ≠ .aborted
        · obtain ⟨rfl, hstatus⟩ := hk
          have hcrash := dispatch_fault (s := { s with queue := queue }) hp overlapped hstatus
          refine Machine.breaks_of_not fun h => ?_
          have hnone := h.fault
          rw [hcrash] at hnone
          cases hnone
        · have hqueue' := queue_dispatch { s with queue := queue } key' overlapped status
          have hchannel := channels_dispatch { s with queue := queue } overlapped hk
          have hnone : completes key (.completion key' overlapped status) = none := if_neg hk
          rw [List.filterMap_cons_none hnone] at hflight
          exact ih (hchannel.trans hp) hqueue' hflight

/-- So does one that the kernel has still to complete. -/
theorem breaks_of_inFlight {s : IOCPFdEventManager} {key : ℕ} (hp : s.channels key = some [])
    (hflight : s.inFlight key ≠ []) : Breaks s := by
  by_cases hqueue : s.queue.filterMap (completes key) = []
  case neg => exact breaks_of_queued hp hqueue
  case pos =>
    by_cases hfault : s.fault = none
    case neg => exact Machine.breaks_of_not fun h => hfault h.fault
    case pos =>
      -- The kernel completes the operation, with success.
      have hout : (s.outstanding.filter fun op => op.1 = key).map Prod.snd ≠ [] := by
        unfold inFlight at hflight
        rwa [hqueue, List.append_nil] at hflight
      obtain ⟨overlapped, hover⟩ := List.exists_mem_of_ne_nil _ hout
      obtain ⟨⟨key', overlapped'⟩, hmem, rfl⟩ := List.mem_map.mp hover
      obtain ⟨hposted, hkey⟩ := List.mem_filter.mp hmem
      obtain rfl : key' = key := by simpa using hkey
      have hsome : ¬ s.fault.isSome := by simp [hfault]
      have hs : s.step (.complete key' overlapped' .success) =
          some { s with
            outstanding := s.outstanding.erase (key', overlapped')
            queue := s.queue ++ [.completion key' overlapped' .success] } := by
        simp only [step, if_neg hsome, if_pos hposted]
      have hqueued :
          (s.queue ++ [Packet.completion key' overlapped' .success]).filterMap (completes key') ≠ [] := by
        rw [List.filterMap_append]
        simp [completes]
      have hcomplete : Completing (.complete key' overlapped' .success) := trivial
      exact .of_step hcomplete hs (breaks_of_queued hp hqueued)

/-! ## Every run -/

/-- Completions match pending operations, however the kernel completes what it has, in exactly the runs
that add each channel when nothing is in flight under its key. -/
theorem matched_iff_addsClean (ops : List Op) :
    Machine.Robust step Matched Completing initial ops ↔ Machine.Meets step AddsClean initial ops := by
  refine Machine.robust_iff_meets (I := Inv) (fun _ h => h.matched) (fun s op hop => ?_)
    (fun _ _ _ h hg hs => h.step hg (stepped_of_step hs).2) (fun s op t _ hg hs => ?_) inv_initial
  · cases op with
    | complete | dequeue => trivial
    | post | wakeup | cancel | close | add => exact hop.elim
  · cases op with
    | add key =>
      cases (stepped_of_step hs).2 with
      | add => exact breaks_of_inFlight (Function.update_self key _ s.channels) hg
    | post | complete | wakeup | dequeue | cancel | close => exact absurd trivial hg

/-- An operation has completed when its channel is cancelled and the handle closed; the packet finds the
next channel with that handle, which has nothing pending yet. -/
theorem stray_after_reuse :
    ¬ ∀ ops : List Op, Machine.Always step Matched initial ops := by
  intro h
  have hrun := h [.add 5, .post 5 1 true, .complete 5 1 .success, .cancel 5, .close 5, .add 5, .dequeue]
  exact absurd (hrun.of_run rfl).fault (by decide)

end IOCPFdEventManager

end Hulatang
