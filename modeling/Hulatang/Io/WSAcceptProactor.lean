import Mathlib.Data.List.Perm.Basic
import Hulatang.Io.OverCompletion

/-!
# Accepts on the IOCP loop

`WSAcceptProactor` keeps `simultaneousAccepts` operations under way on the listening socket, each with a
socket that it has made for the next peer. What completes is handed on with its socket, whatever its status,
and posted again with a new one. A post that fails ends the operation: neither its `AcceptOverlapped` nor its
socket is used again, nor freed. `ERROR_OPERATION_ABORTED` ends one too, which stays in the channel's list.

So the number of accepts under way never grows, and it is what is left of the 32 after those that were lost;
no socket is handed on twice, and every one that was made is handed on, under way or lost
(`conserved_of_run`).
-/

open scoped List

namespace Hulatang

namespace OverLists

/-! ## What the functions on the lists keep -/

variable {s t u : OverLists} {P : List ℕ} {x : ℕ} {o : StreamOverlapped}
  {g : StreamOverlapped → StreamOverlapped}

/-- The types of the nodes. -/
def types (s : OverLists) (a : ℕ) : Option OverType := (s.heap.cells a).map StreamOverlapped.type

/-- The nodes keep their types, and none is queued to be deleted. -/
structure SameTypes (s t : OverLists) : Prop where
  types : ∀ a, t.types a = s.types a
  freeing : t.freeing = s.freeing

theorem SameTypes.trans (h : SameTypes s t) (h' : SameTypes t u) : SameTypes s u :=
  ⟨fun a => (h'.types a).trans (h.types a), h'.freeing.trans h.freeing⟩

theorem types_set_of_ne {a : ℕ} (ha : a ≠ x) : types { s with heap := s.heap.set x o } a = s.types a :=
  congrArg (Option.map StreamOverlapped.type) (Heap.set_of_ne ha)

theorem types_set_self : types { s with heap := s.heap.set x o } x = some o.type :=
  congrArg (Option.map StreamOverlapped.type) (Heap.set_self ..)

theorem sameTypes_modify (h : s.modify x g = .ok t) (hg : ∀ o, (g o).type = o.type) : SameTypes s t := by
  obtain ⟨o, ho, hset⟩ := bind_eq_ok h
  cases hset
  refine ⟨fun a => ?_, rfl⟩
  by_cases ha : a = x
  · subst ha
    unfold deref at ho
    split at ho
    · rename_i hcells
      cases ho
      rw [types_set_self, hg]
      exact (congrArg (Option.map StreamOverlapped.type) hcells).symm
    · cases ho
  · exact types_set_of_ne ha

theorem sameTypes_addOver (h : s.addOver x = .ok t) : SameTypes s t := by
  unfold addOver at h
  split at h
  · cases h
    exact ⟨fun _ => rfl, rfl⟩
  · obtain ⟨last, -, hset⟩ := bind_eq_ok h
    exact sameTypes_modify hset fun _ => rfl

theorem sameTypes_unlinkAfter {fuel prevOver : ℕ} {p : Option ℕ}
    (h : unlinkAfter x fuel prevOver p s = .ok t) :
    SameTypes s t := by
  induction fuel generalizing prevOver p with
  | zero => cases p <;> cases h
  | succ fuel ih =>
    cases p with
    | none => cases h
    | some wsOver =>
      obtain ⟨o, -, hrest⟩ := bind_eq_ok h
      split_ifs at hrest
      · obtain ⟨u, hu, hrest⟩ := bind_eq_ok hrest
        obtain ⟨v, hv, hrest⟩ := bind_eq_ok hrest
        cases hrest
        have hboth := (sameTypes_modify hu fun _ => rfl).trans (sameTypes_modify hv fun _ => rfl)
        exact ⟨hboth.types, hboth.freeing⟩
      · exact ih hrest

theorem sameTypes_unlink {bytes : ℕ} (h : s.unlink x bytes = .ok t) : SameTypes s t := by
  obtain ⟨u, hu, hrest⟩ := bind_eq_ok h
  refine (sameTypes_modify hu fun _ => rfl).trans ?_
  split at hrest
  · cases hrest
  · obtain ⟨o, -, hrest⟩ := bind_eq_ok hrest
    split_ifs at hrest
    · obtain ⟨v, hv, hrest⟩ := bind_eq_ok hrest
      cases hrest
      have hset := sameTypes_modify hv fun _ => rfl
      exact ⟨hset.types, hset.freeing⟩
    · exact sameTypes_unlinkAfter hrest

end OverLists

/-- What `postAccept` meets. -/
structure AcceptCall where
  /-- What `WSASocketW` returns, `INVALID_SOCKET` for `none`. -/
  sockfd : Option ℕ
  /-- Whether `ioctlsocket` succeeds. -/
  nonblocking : Bool
  /-- Whether `AcceptEx` is under way, or done. -/
  accepting : Bool
  deriving DecidableEq

/-- The operation is under way. -/
def AcceptCall.Posts (call : AcceptCall) : Prop := call.nonblocking = true ∧ call.accepting = true

instance (call : AcceptCall) : Decidable call.Posts := inferInstanceAs (Decidable (_ ∧ _))

/-- The proactor, its channel and the sockets. -/
structure WSAcceptProactor where
  /-- The `AcceptOverlapped`s in the lists of the channel. -/
  lists : OverLists
  /-- Their `sockfd`. -/
  sockfd : ℕ → ℕ
  /-- How often the loop of `postAccept` has run. -/
  i : ℕ
  /-- What the kernel has. -/
  outstanding : List ℕ
  /-- What has completed with `ERROR_OPERATION_ABORTED`. -/
  aborted : List ℕ
  /-- What could not be posted. -/
  lost : List ℕ
  /-- What `WSASocketW` has returned. -/
  made : List ℕ
  /-- What `newConnectionCallback` was given. -/
  handed : List ℕ

namespace WSAcceptProactor

open OverLists (Action Func Handlers Lists Pending Handled)

def simultaneousAccepts : ℕ := 32

def initial : WSAcceptProactor := ⟨.initial, fun _ => 0, 0, [], [], [], [], []⟩

/-- `postAccept` of one `AcceptOverlapped`, as far as the lists go. -/
def postAccept (call : AcceptCall) : Func := fun wsOver s =>
  if call.sockfd = none then .error .abort
  else if call.Posts then do
    let s ← s.modify wsOver fun o => { o with type := .READ }
    (s.noted wsOver).addOver wsOver
  else return s

/-- The functions of the proactor. -/
def handlers (call : AcceptCall) : Handlers :=
  ⟨postAccept call, fun _ _ => .error .abort, fun s => return s⟩

/-- What `postAccept` leaves elsewhere. -/
def posted (s : WSAcceptProactor) (wsOver : ℕ) (call : AcceptCall) (lists : OverLists) : WSAcceptProactor :=
  { s with
    lists := lists
    sockfd := call.sockfd.elim s.sockfd (Function.update s.sockfd wsOver)
    made := s.made ++ call.sockfd.toList
    outstanding := if call.Posts then wsOver :: s.outstanding else s.outstanding
    lost := if call.Posts then s.lost else wsOver :: s.lost }

/-- One turn of the loop of `postAccept`. -/
def postNew (s : WSAcceptProactor) (hint : ℕ) (call : AcceptCall) : Except OverFault WSAcceptProactor := do
  let (wsOver, lists) := s.lists.new hint
  let lists ← postAccept call wsOver lists
  return { s.posted wsOver call lists with i := s.i + 1 }

/-- The socket of a completed operation goes to `newConnectionCallback`. -/
def handOn (s : WSAcceptProactor) (wsOver : ℕ) : WSAcceptProactor :=
  { s with
    outstanding := s.outstanding.erase wsOver
    handed := s.handed ++ [s.sockfd wsOver] }

/-- A completion, for which `handleEvent` calls `handleRead`. -/
def complete (s : WSAcceptProactor) (overlapped bytes : ℕ) (call : AcceptCall) :
    Except OverFault WSAcceptProactor := do
  let lists ← s.lists.process overlapped bytes fun _ => OverLists.func (handlers call)
  return (s.handOn overlapped).posted overlapped call lists

/-- The `AcceptOverlapped`s with a socket that has not been handed on. -/
def overs (s : WSAcceptProactor) : List ℕ := s.outstanding ++ s.aborted ++ s.lost

/-- `WSASocketW` returns no socket that is open. -/
def Makes (s : WSAcceptProactor) (call : AcceptCall) (wsOvers : List ℕ) : Prop :=
  ∀ sock ∈ call.sockfd, sock ∉ wsOvers.map s.sockfd

instance (s : WSAcceptProactor) (call : AcceptCall) (wsOvers : List ℕ) : Decidable (s.Makes call wsOvers) :=
  inferInstanceAs (Decidable (∀ sock ∈ call.sockfd, _))

/-- What the loop and the kernel do. -/
inductive Op
  | postNew (hint : ℕ) (call : AcceptCall)
  /-- `process` dequeues a completion, after the loop of `postAccept`. -/
  | completed (overlapped bytes : ℕ) (call : AcceptCall)
  | aborted (overlapped : ℕ)
  deriving DecidableEq

/-- One step, until the program is stopped. -/
def step (s : WSAcceptProactor) : Op → Option WSAcceptProactor
  | .postNew hint call =>
    if s.i < simultaneousAccepts ∧ s.Makes call s.overs then (s.postNew hint call).toOption else none
  | .completed overlapped bytes call =>
    if s.i = simultaneousAccepts ∧ overlapped ∈ s.outstanding ∧ s.Makes call (s.overs.erase overlapped) then
      (s.complete overlapped bytes call).toOption
    else none
  | .aborted overlapped =>
    if s.i = simultaneousAccepts ∧ overlapped ∈ s.outstanding then
      some { s with outstanding := s.outstanding.erase overlapped, aborted := overlapped :: s.aborted }
    else none

variable {s t : WSAcceptProactor} {lists lists' : OverLists} {P : List ℕ} {x sock : ℕ} {o : StreamOverlapped}
  {call : AcceptCall}

/-! ## The sockets -/

/-- Each operation has a socket of its own, and every socket that was made is with one, or was handed on. -/
structure Ledger (s : WSAcceptProactor) : Prop where
  nodup : s.overs.Nodup
  sockets : s.made ~ s.handed ++ s.overs.map s.sockfd
  distinct : (s.overs.map s.sockfd).Nodup

theorem overs_handOn (hx : x ∈ s.outstanding) : (s.handOn x).overs = s.overs.erase x := by
  unfold overs handOn
  rw [List.append_assoc, List.append_assoc, List.erase_append_left _ hx]

/-- The socket of a completed operation is handed on. -/
theorem Ledger.handOn (h : Ledger s) (hx : x ∈ s.outstanding) : Ledger (s.handOn x) := by
  have hovers := overs_handOn hx
  have hmem : x ∈ s.overs := List.mem_append_left _ (List.mem_append_left _ hx)
  have hperm : s.overs.map s.sockfd ~ s.sockfd x :: (s.overs.erase x).map s.sockfd :=
    (List.perm_cons_erase hmem).map s.sockfd
  refine ⟨?_, ?_, ?_⟩
  · rw [hovers]
    exact h.nodup.erase x
  · rw [hovers]
    show s.made ~ s.handed ++ [s.sockfd x] ++ _
    rw [List.append_assoc]
    exact h.sockets.trans (hperm.append_left _)
  · rw [hovers]
    exact (List.nodup_cons.mp (hperm.nodup_iff.mp h.distinct)).2

/-- An operation is posted with a new socket, or lost with it. -/
theorem Ledger.posted (h : Ledger s) (lists : OverLists) (hx : x ∉ s.overs) (hsock : call.sockfd = some sock)
    (hmakes : s.Makes call s.overs) :
    Ledger (s.posted x call lists) ∧ (s.posted x call lists).overs ~ x :: s.overs := by
  have hovers : (s.posted x call lists).overs ~ x :: s.overs := by
    unfold WSAcceptProactor.posted overs
    by_cases hposts : call.Posts
    · rw [if_pos hposts, if_pos hposts]
      exact List.Perm.refl _
    · rw [if_neg hposts, if_neg hposts]
      exact List.perm_middle
  have hsockfd : (s.posted x call lists).sockfd = Function.update s.sockfd x sock := by
    unfold WSAcceptProactor.posted
    rw [hsock]
    rfl
  -- The other operations have the sockets that they have had.
  have hsame : s.overs.map (Function.update s.sockfd x sock) = s.overs.map s.sockfd :=
    List.map_congr_left fun a ha =>
      Function.update_of_ne (fun hax : a = x => hx (hax ▸ ha)) ..
  have hperm : (s.posted x call lists).overs.map (s.posted x call lists).sockfd ~
      sock :: s.overs.map s.sockfd := by
    rw [hsockfd, ← hsame]
    refine (hovers.map _).trans (List.Perm.of_eq ?_)
    rw [List.map_cons, Function.update_self]
  refine ⟨⟨?_, ?_, ?_⟩, hovers⟩
  · exact hovers.nodup_iff.mpr (List.nodup_cons.mpr ⟨hx, h.nodup⟩)
  · show s.made ++ call.sockfd.toList ~ s.handed ++ _
    rw [hsock]
    calc s.made ++ [sock] ~ sock :: s.made := List.perm_append_singleton sock s.made
      _ ~ sock :: (s.handed ++ s.overs.map s.sockfd) := h.sockets.cons sock
      _ ~ s.handed ++ sock :: s.overs.map s.sockfd := List.perm_middle.symm
      _ ~ s.handed ++ _ := hperm.symm.append_left _
  · exact hperm.nodup_iff.mpr (List.nodup_cons.mpr ⟨hmakes sock hsock, h.distinct⟩)

/-! ## A post -/

/-- What a post does to the lists, where there is a socket. -/
structure Posted (call : AcceptCall) (x : ℕ) (lists lists' : OverLists) (P : List ℕ) : Prop where
  handled : Handled lists lists' [x] [] P (if call.Posts then [x] else [])
  others : ∀ a, a ≠ x → lists'.types a = lists.types a
  type : lists'.types x ≠ none
  read : call.Posts → lists'.types x = some .READ
  freeing : lists'.freeing = lists.freeing

theorem postAccept_ok (h : Pending lists P) (hx : lists.heap.cells x = some o) (hnext : o.next = none)
    (hnot : x ∉ P) (hsock : call.sockfd ≠ none) :
    ∃ lists', postAccept call x lists = .ok lists' ∧ Posted call x lists lists' P := by
  unfold postAccept
  rw [if_neg hsock]
  by_cases hposts : call.Posts
  · rw [if_pos hposts]
    have hassigned : Pending { lists with heap := lists.heap.set x { o with type := .READ } } P :=
      h.of_update hnot fun a ha => Heap.set_of_ne ha
    obtain ⟨t, hadd, hhandled, -⟩ := hassigned.addOver (Heap.set_self ..) hnext (.inr (.inl rfl)) hnot
    have hnoted := OverLists.sameTypes_addOver hadd
    have hsame : OverLists.SameTypes { lists with heap := lists.heap.set x { o with type := .READ } } t :=
      ⟨hnoted.types, hnoted.freeing⟩
    have hread : t.types x = some .READ := (hsame.types x).trans OverLists.types_set_self
    rw [bind_of_eq_ok (OverLists.modify_eq hx _)]
    refine ⟨t, hadd, ?_, fun a ha => ?_, ?_, fun _ => hread, hsame.freeing⟩
    · rw [if_pos hposts]
      exact hhandled.of_set
    · exact (hsame.types a).trans (OverLists.types_set_of_ne ha)
    · rw [hread]
      exact Option.some_ne_none _
  · rw [if_neg hposts]
    refine ⟨lists, rfl, ?_, fun _ _ => rfl, ?_, fun hp => absurd hp hposts, rfl⟩
    · rw [if_neg hposts]
      exact h.refl.mono (List.nil_sublist _)
    · unfold OverLists.types
      rw [hx]
      exact Option.some_ne_none _

/-! ## Completions -/

/-- The list of the channel, all of it accepts. -/
structure Accepts (lists : OverLists) (P : List ℕ) : Prop where
  linked : Lists lists P []
  reads : ∀ a ∈ P, lists.types a = some .READ
  freeing : lists.freeing = []

theorem Accepts.pending (h : Accepts lists P) : Pending lists P :=
  ⟨h.linked.overPtr, h.linked.rover, fun a ha => h.linked.requests a (List.mem_append_left _ ha)⟩

/-- What `handleRead` finds: the completed node is in no list, and the others are as before. -/
structure Completing (lists u : OverLists) (P : List ℕ) (x : ℕ) : Prop where
  ready : ∃ v, Lists v (P.erase x) [x] ∧ u.heap = v.heap ∧ u.freeing = v.freeing
  pending : Pending u (P.erase x)
  node : ∃ o, u.heap.cells x = some o ∧ o.next = none
  types : ∀ a, u.types a = lists.types a
  freeing : u.freeing = lists.freeing

/-- `process` takes the node out, and `handleEvent` calls `handleRead` with it, as it is the only one. -/
theorem Accepts.process (h : Accepts lists P) (hx : x ∈ P) (bytes : ℕ) (call : AcceptCall) :
    ∃ u, lists.process x bytes (fun _ => OverLists.func (handlers call)) = postAccept call x u ∧
      Completing lists u P x := by
  obtain ⟨v, hv, hunlinked, -⟩ := h.linked.unlink hx bytes
  have hsame := OverLists.sameTypes_unlink hv
  obtain ⟨hrover, next, hnext, hnull⟩ := hunlinked.rover
  obtain ⟨o, ho, rfl⟩ := OverLists.link_eq_some_iff.mp hnext
  have htype : o.type = .READ := by
    have hread := (hsame.types x).trans (h.reads x hx)
    unfold OverLists.types at hread
    rw [ho] at hread
    exact Option.some.inj hread
  refine ⟨{ v with rover := none, dispatched := v.dispatched ++ [x] }, ?_, ?_⟩
  · unfold OverLists.process
    rw [bind_of_eq_ok hv, OverLists.handleEvent_eq hrover ho, show o.next = none from hnull,
      OverLists.handleAll_none]
    unfold OverLists.func
    rw [bind_of_eq_ok (OverLists.deref_eq (s := { v with rover := none }) ho), htype]
    rfl
  · exact
      { ready := ⟨v, hunlinked, rfl, rfl⟩
        pending := ⟨hunlinked.overPtr, rfl, fun a ha => hunlinked.requests a (List.mem_append_left _ ha)⟩
        node := ⟨o, ho, hnull⟩
        types := hsame.types
        freeing := hsame.freeing }

/-- The completed operation is posted again, or not. -/
theorem Accepts.complete (h : Accepts lists P) (hx : x ∈ P) (bytes : ℕ) (hsock : call.sockfd ≠ none) :
    ∃ lists', lists.process x bytes (fun _ => OverLists.func (handlers call)) = .ok lists' ∧
      Accepts lists' (P.erase x ++ if call.Posts then [x] else []) ∧
      (∀ a, lists.types a ≠ none → lists'.types a ≠ none) := by
  obtain ⟨u, hprocess, hcompleting⟩ := h.process hx bytes call
  obtain ⟨o, ho, hnext⟩ := hcompleting.node
  obtain ⟨v, hready, hheap, hfreeing⟩ := hcompleting.ready
  have hnot : x ∉ P.erase x := h.linked.overPtr.nodup.not_mem_erase
  obtain ⟨lists', hpost, hposted⟩ := postAccept_ok hcompleting.pending ho hnext hnot hsock
  refine ⟨lists', hprocess.trans hpost, ⟨?_, fun a ha => ?_, ?_⟩, fun a ha => ?_⟩
  · exact hready.of_handled hheap hfreeing hposted.handled
  · rcases List.mem_append.mp ha with hmem | hlast
    · have hax : a ≠ x := fun hax => hnot (hax ▸ hmem)
      rw [hposted.others a hax, hcompleting.types]
      exact h.reads a (List.mem_of_mem_erase hmem)
    · split_ifs at hlast with hposts
      · rw [List.mem_singleton.mp hlast]
        exact hposted.read hposts
      · cases hlast
  · exact hposted.freeing.trans (hcompleting.freeing.trans h.freeing)
  · by_cases hax : a = x
    · rw [hax]
      exact hposted.type
    · rw [hposted.others a hax, hcompleting.types]
      exact ha

/-- A new operation is posted, or not. -/
theorem Accepts.new (h : Accepts lists P) (hint : ℕ) (hsock : call.sockfd ≠ none) :
    ∃ lists', postAccept call (lists.heap.fresh hint) (lists.new hint).2 = .ok lists' ∧
      Accepts lists' (P ++ if call.Posts then [lists.heap.fresh hint] else []) ∧
      (∀ a, lists.types a ≠ none → lists'.types a ≠ none) ∧ lists'.types (lists.heap.fresh hint) ≠ none := by
  have hnot := h.pending.fresh_not_mem hint
  have hnew : Pending (lists.new hint).2 P := h.pending.of_update hnot fun a ha => Heap.set_of_ne ha
  obtain ⟨lists', hpost, hposted⟩ := postAccept_ok hnew (Heap.set_self ..) rfl hnot hsock
  have hold : ∀ a, lists.types a ≠ none → a ≠ lists.heap.fresh hint := by
    rintro a ha rfl
    exact ha (congrArg (Option.map StreamOverlapped.type) (Heap.cells_fresh ..))
  have htypes : ∀ a, a ≠ lists.heap.fresh hint → lists'.types a = lists.types a := fun a ha =>
    (hposted.others a ha).trans (OverLists.types_set_of_ne ha)
  have hhandled : Handled lists lists' [] [] P (if call.Posts then [lists.heap.fresh hint] else []) :=
    { pending := hposted.handled.pending
      frame := fun a hP _ ha => hposted.handled.of_set.frame a hP
        (fun hmem => ha (List.mem_singleton.mp hmem ▸ Heap.cells_fresh ..)) ha
      fresh := fun a ha => by
        split_ifs at ha
        · exact .inr (List.mem_singleton.mp ha ▸ Heap.cells_fresh ..)
        · cases ha
      freeing := ⟨[], hposted.freeing.trans (List.append_nil _).symm, List.nil_sublist _,
        List.forall_mem_nil _⟩
      added := hposted.handled.added
      dispatched := hposted.handled.dispatched
      updates := hposted.handled.updates }
  refine ⟨lists', hpost, ⟨?_, fun a ha => ?_, ?_⟩, fun a ha => ?_, hposted.type⟩
  · exact h.linked.of_handled rfl rfl hhandled
  · rcases List.mem_append.mp ha with hmem | hlast
    · have hread := h.reads a hmem
      rw [htypes a (hold a (hread ▸ Option.some_ne_none _))]
      exact hread
    · split_ifs at hlast with hposts
      · rw [List.mem_singleton.mp hlast]
        exact hposted.read hposts
      · cases hlast
  · exact hposted.freeing.trans h.freeing
  · rw [htypes a (hold a ha)]
    exact ha

/-! ## Runs -/

/-- The channel's list has the operations of the kernel and those that were aborted. -/
structure Inv (s : WSAcceptProactor) (P : List ℕ) : Prop where
  accepts : Accepts s.lists P
  pending : P ~ s.outstanding ++ s.aborted
  lost : ∀ a ∈ s.lost, s.lists.types a ≠ none
  ledger : Ledger s
  capacity : s.overs.length = s.i
  bound : s.i ≤ simultaneousAccepts

theorem inv_initial : Inv initial [] where
  accepts := ⟨OverLists.lists_initial, List.forall_mem_nil _, rfl⟩
  pending := List.Perm.refl _
  lost := List.forall_mem_nil _
  ledger := ⟨List.nodup_nil, List.Perm.refl _, List.nodup_nil⟩
  capacity := rfl
  bound := Nat.zero_le _

theorem Inv.allocated (h : Inv s P) {a : ℕ} (ha : a ∈ s.overs) : s.lists.types a ≠ none := by
  rcases List.mem_append.mp ha with hpending | hlost
  · rw [h.accepts.reads a (h.pending.mem_iff.mpr hpending)]
    exact Option.some_ne_none _
  · exact h.lost a hlost

theorem postAccept_of_none (hsock : call.sockfd = none) :
    postAccept call x lists = .error .abort :=
  if_pos hsock

/-- The list goes on with what was posted. -/
theorem pending_posted (lists : OverLists) {Q : List ℕ} (hpending : Q ~ s.outstanding ++ s.aborted) :
    Q ++ (if call.Posts then [x] else []) ~
      (s.posted x call lists).outstanding ++ (s.posted x call lists).aborted := by
  unfold WSAcceptProactor.posted
  by_cases hposts : call.Posts
  · rw [if_pos hposts, if_pos hposts]
    calc Q ++ [x] ~ x :: Q := List.perm_append_singleton x Q
      _ ~ x :: (s.outstanding ++ s.aborted) := hpending.cons x
  · rw [if_neg hposts, if_neg hposts, List.append_nil]
    exact hpending

theorem mem_lost_posted (lists : OverLists) {a : ℕ} (ha : a ∈ (s.posted x call lists).lost) :
    a ∈ s.lost ∨ a = x := by
  unfold WSAcceptProactor.posted at ha
  dsimp only at ha
  split_ifs at ha
  · exact .inl ha
  · exact (List.mem_cons.mp ha).symm

theorem Inv.postNew {hint : ℕ} (h : Inv s P) (hi : s.i < simultaneousAccepts) (hmakes : s.Makes call s.overs)
    (hs : s.postNew hint call = .ok t) : ∃ P', Inv t P' := by
  obtain ⟨lists', hpost, hreturn⟩ :=
    bind_eq_ok (x := postAccept call (s.lists.heap.fresh hint) (s.lists.new hint).2) hs
  cases hreturn
  obtain ⟨sock, hsock⟩ : ∃ sock, call.sockfd = some sock := by
    refine Option.ne_none_iff_exists'.mp fun hnone => ?_
    rw [postAccept_of_none hnone] at hpost
    cases hpost
  have hsome : call.sockfd ≠ none := hsock ▸ Option.some_ne_none sock
  obtain ⟨u, hu, haccepts, hkept, hnew⟩ := h.accepts.new hint hsome
  cases hpost.symm.trans hu
  have hx : s.lists.heap.fresh hint ∉ s.overs := fun hmem =>
    h.allocated hmem (congrArg (Option.map StreamOverlapped.type) (Heap.cells_fresh ..))
  obtain ⟨hledger, hovers⟩ := h.ledger.posted lists' hx hsock hmakes
  refine ⟨_, haccepts, pending_posted lists' h.pending, fun a ha => ?_,
    ⟨hledger.nodup, hledger.sockets, hledger.distinct⟩, ?_, hi⟩
  · rcases mem_lost_posted lists' ha with hlost | rfl
    · exact hkept a (h.lost a hlost)
    · exact hnew
  · have hlength := hovers.length_eq
    rw [List.length_cons, h.capacity] at hlength
    exact hlength

/-- After a completion, the socket of the operation has been handed on, and the operation stands at the end of
the channel's list if it could be posted again. -/
structure Reposted (s t : WSAcceptProactor) (x : ℕ) (call : AcceptCall) : Prop where
  handed : t.handed = s.handed ++ [s.sockfd x]
  pending : t.lists.pending = s.lists.pending.erase x ++ if call.Posts then [x] else []
  outstanding : t.outstanding = (if call.Posts then [x] else []) ++ s.outstanding.erase x

/-- A completion is handled whatever it is, unless there is no socket. -/
theorem Inv.complete_ok {bytes : ℕ} (h : Inv s P) (hx : x ∈ s.outstanding) (hsock : call.sockfd ≠ none) :
    ∃ t, s.complete x bytes call = .ok t ∧ Reposted s t x call := by
  obtain ⟨lists', hprocess, haccepts, -⟩ :=
    h.accepts.complete (h.pending.mem_iff.mpr (List.mem_append_left _ hx)) bytes hsock
  refine ⟨_, bind_of_eq_ok hprocess _, rfl, ?_, ?_⟩
  · rw [h.accepts.linked.pending]
    exact haccepts.linked.pending
  · unfold WSAcceptProactor.posted handOn
    by_cases hposts : call.Posts
    · simp only [hposts, if_true]
      rfl
    · simp only [hposts, if_false]
      rfl

theorem Inv.complete {bytes : ℕ} (h : Inv s P) (hx : x ∈ s.outstanding)
    (hmakes : s.Makes call (s.overs.erase x)) (hs : s.complete x bytes call = .ok t) : ∃ P', Inv t P' := by
  have hxP : x ∈ P := h.pending.mem_iff.mpr (List.mem_append_left _ hx)
  obtain ⟨lists', hprocess, hreturn⟩ := bind_eq_ok hs
  cases hreturn
  obtain ⟨sock, hsock⟩ : ∃ sock, call.sockfd = some sock := by
    refine Option.ne_none_iff_exists'.mp fun hnone => ?_
    obtain ⟨u, hu, -⟩ := h.accepts.process hxP bytes call
    rw [hu, postAccept_of_none hnone] at hprocess
    cases hprocess
  have hsome : call.sockfd ≠ none := hsock ▸ Option.some_ne_none sock
  obtain ⟨u, hu, haccepts, hkept⟩ := h.accepts.complete hxP bytes hsome
  cases hprocess.symm.trans hu
  have hhanded := overs_handOn hx
  have hmem : x ∈ s.overs := List.mem_append_left _ (List.mem_append_left _ hx)
  have hnot : x ∉ s.overs.erase x := h.ledger.nodup.not_mem_erase
  obtain ⟨hledger, hovers⟩ := (h.ledger.handOn hx).posted lists' (hhanded ▸ hnot) hsock (hhanded ▸ hmakes)
  have hpending : P.erase x ~ s.outstanding.erase x ++ s.aborted := by
    rw [← List.erase_append_left _ hx]
    exact h.pending.erase x
  refine ⟨_, haccepts, pending_posted (s := s.handOn x) lists' hpending,
    fun a ha => ?_, hledger, ?_, h.bound⟩
  · rcases mem_lost_posted lists' ha with hlost | rfl
    · exact hkept a (h.lost a hlost)
    · exact hkept a (h.allocated hmem)
  · have hlength := hovers.length_eq
    rw [List.length_cons, hhanded, List.length_erase_add_one hmem, h.capacity] at hlength
    exact hlength

/-- An aborted operation stays in the channel's list. -/
theorem Inv.aborted (h : Inv s P) (hx : x ∈ s.outstanding) :
    Inv { s with outstanding := s.outstanding.erase x, aborted := x :: s.aborted } P := by
  have hpending : s.outstanding ++ s.aborted ~ s.outstanding.erase x ++ x :: s.aborted := by
    refine ((List.perm_cons_erase hx).append_right _).trans ?_
    exact List.perm_middle.symm
  have hovers : s.outstanding.erase x ++ x :: s.aborted ++ s.lost ~ s.overs :=
    (hpending.append_right s.lost).symm
  have hsockets := hovers.map s.sockfd
  exact
    { accepts := h.accepts
      pending := h.pending.trans hpending
      lost := h.lost
      ledger := ⟨hovers.nodup_iff.mpr h.ledger.nodup, h.ledger.sockets.trans (hsockets.symm.append_left _),
        hsockets.nodup_iff.mpr h.ledger.distinct⟩
      capacity := hovers.length_eq.trans h.capacity
      bound := h.bound }

theorem Inv.step {op : Op} (h : Inv s P) (hs : s.step op = some t) : ∃ P', Inv t P' := by
  cases op with
  | postNew hint call =>
    obtain ⟨⟨hi, hmakes⟩, hcall⟩ := Option.ite_none_right_eq_some.mp hs
    exact h.postNew hi hmakes (ok_of_toOption hcall)
  | completed overlapped bytes call =>
    obtain ⟨⟨-, hx, hmakes⟩, hcall⟩ := Option.ite_none_right_eq_some.mp hs
    exact h.complete hx hmakes (ok_of_toOption hcall)
  | aborted overlapped =>
    obtain ⟨⟨-, hx⟩, hcall⟩ := Option.ite_none_right_eq_some.mp hs
    cases hcall
    exact ⟨P, h.aborted hx⟩

/-- The accepts under way are those of the 32 that were neither lost nor aborted; every socket that was made
was handed on or belongs to one of the 32, each to one; and each completion is handed on and posted again, as
long as sockets can be made. -/
structure Sound (s : WSAcceptProactor) : Prop where
  pending : s.lists.pending ~ s.outstanding ++ s.aborted
  capacity : s.outstanding.length + s.aborted.length + s.lost.length = s.i
  bound : s.i ≤ simultaneousAccepts
  sockets : s.made ~ s.handed ++ s.overs.map s.sockfd
  distinct : (s.overs.map s.sockfd).Nodup
  goesOn : ∀ x ∈ s.outstanding, ∀ bytes (call : AcceptCall), call.sockfd ≠ none →
    ∃ t, s.complete x bytes call = .ok t ∧ Reposted s t x call

theorem Inv.sound (h : Inv s P) : Sound s where
  pending := h.accepts.linked.pending.symm ▸ h.pending
  capacity := by
    have hlength := h.capacity
    unfold overs at hlength
    rwa [List.length_append, List.length_append] at hlength
  bound := h.bound
  sockets := h.ledger.sockets
  distinct := h.ledger.distinct
  goesOn _ hx _ _ hsock := h.complete_ok hx hsock

/-- Once all are posted, no step has more of them under way. -/
theorem outstanding_step {op : Op} (hi : s.i = simultaneousAccepts) (hs : s.step op = some t) :
    t.i = simultaneousAccepts ∧ t.outstanding.length ≤ s.outstanding.length := by
  cases op with
  | postNew hint call =>
    obtain ⟨⟨hless, -⟩, -⟩ := Option.ite_none_right_eq_some.mp hs
    omega
  | completed overlapped bytes call =>
    obtain ⟨⟨-, hx, -⟩, hcall⟩ := Option.ite_none_right_eq_some.mp hs
    obtain ⟨lists, -, hreturn⟩ := bind_eq_ok (ok_of_toOption hcall)
    cases hreturn
    refine ⟨hi, ?_⟩
    have hlength := List.length_erase_add_one hx
    unfold WSAcceptProactor.posted handOn
    dsimp only
    split_ifs
    · rw [List.length_cons]
      omega
    · omega
  | aborted overlapped =>
    obtain ⟨-, hcall⟩ := Option.ite_none_right_eq_some.mp hs
    cases hcall
    exact ⟨hi, List.length_erase_le⟩

/-- Over every run; and once the loop of `postAccept` is done the accepts under way never grow. -/
theorem conserved_of_run (ops : List Op) :
    Machine.Always step Sound initial ops ∧
      ∀ s, Machine.run step initial ops = some s → s.i = simultaneousAccepts → ∀ later t,
        Machine.run step s later = some t → t.outstanding.length ≤ s.outstanding.length := by
  constructor
  · exact Machine.always_of_meets (I := fun s => ∃ P, Inv s P) (G := fun _ _ => True)
      (fun _ ⟨_, h⟩ => h.sound) (fun _ _ _ ⟨_, h⟩ _ hs => h.step hs) ⟨_, inv_initial⟩
      (Machine.meets_of_labels fun _ _ => trivial)
  · intro s _ hi later t hlater
    have hinv := Machine.run_invariant
      (I := fun u => u.i = simultaneousAccepts ∧ u.outstanding.length ≤ s.outstanding.length)
      (fun u op v hu hs => ⟨(outstanding_step hu.1 hs).1, (outstanding_step hu.1 hs).2.trans hu.2⟩)
      ⟨hi, Nat.le_refl _⟩ hlater
    exact hinv.2

end WSAcceptProactor

end Hulatang
