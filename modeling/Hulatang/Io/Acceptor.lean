import Mathlib.Data.List.Basic
import Mathlib.Tactic.SplitIfs
import Hulatang.Lib.Machine

/-!
# The acceptor when the descriptors run out

`Acceptor` keeps a descriptor of `/dev/null` in reserve. When `accept` fails with `EMFILE` the error callback
closes it, accepts one connection, closes that and opens `/dev/null` again, so that the peer is gone and the
level-triggered event with it. The callback makes four calls, and other threads of the process open and close
descriptors between them.

Peers are taken in the order in which they have come, the callback takes one whenever one is waiting, and the
reserve is there whenever the callback is not running, in exactly those runs in which no other thread takes
the place that the callback has made (`robust_iff_leavesFree`). Otherwise `open` fails, and with it the
assertion in `FileDescriptor`.
-/

namespace Hulatang

/-- The errors of `accept` that `socket::accept` tells apart. -/
inductive AcceptErrno
  | EAGAIN | ECONNABORTED | EINTR | EMFILE | ENFILE
  | ENOBUFS | ENOMEM | EPROTO | ENOTSOCK | EOPNOTSUPP | EINVAL | EFAULT | EBADF
  | other
  deriving DecidableEq

/-- Whether `socket::accept` calls `abort`. -/
def AcceptErrno.aborts : AcceptErrno → Bool
  | .EAGAIN | .ECONNABORTED | .EINTR | .EMFILE | .ENFILE | .other => false
  | .ENOBUFS | .ENOMEM | .EPROTO | .ENOTSOCK | .EOPNOTSUPP | .EINVAL | .EFAULT | .EBADF => true

/-- What has become of a peer that is not waiting any more. -/
inductive Fate
  | handed
  /-- Accepted and closed at once. -/
  | refused
  /-- `ECONNABORTED`: it has given up. -/
  | aborted
  deriving DecidableEq

/-- The calls that the error callback has still to make. -/
inductive ErrorCallback
  | returned
  | closeIdle
  | accept
  | close (fd : ℕ)
  | reopen
  deriving DecidableEq

/-- How the acceptor ends. -/
inductive AcceptorFault
  | abort
  /-- `assert(fd >= 0)` of the new reserve. -/
  | noIdle
  deriving DecidableEq

/-- The acceptor, in a process with other descriptors. -/
structure Acceptor where
  /-- How many descriptors the process may have. -/
  limit : ℕ
  acceptFd : ℕ
  idleFd : Option ℕ
  callback : ErrorCallback
  /-- The descriptors of anything else, connections included. -/
  others : List ℕ
  /-- The peers that wait to be accepted, the oldest first. -/
  waiting : List ℕ
  /-- All that have come. -/
  arrived : List ℕ
  taken : List (ℕ × Fate)
  /-- How often the callback has accepted nothing while a peer was waiting. -/
  misses : ℕ
  fault : Option AcceptorFault
  deriving DecidableEq

namespace Acceptor

/-- The constructor, and `listen`. -/
def initial (limit acceptFd idleFd : ℕ) (others : List ℕ) : Acceptor where
  limit := limit
  acceptFd := acceptFd
  idleFd := some idleFd
  callback := .returned
  others := others
  waiting := []
  arrived := []
  taken := []
  misses := 0
  fault := none

/-- The descriptor between `accept` and `close`. -/
def own (s : Acceptor) : List ℕ :=
  match s.callback with
  | .close fd => [fd]
  | _ => []

/-- The open descriptors of the process, by their owners. -/
def descriptors (s : Acceptor) : List ℕ := s.acceptFd :: (s.idleFd.toList ++ s.own ++ s.others)

/-- The kernel looks for a free descriptor before it looks for a peer. -/
def Full (s : Acceptor) : Prop := s.limit ≤ s.descriptors.length

instance (s : Acceptor) : Decidable s.Full := inferInstanceAs (Decidable (_ ≤ _))

/-- Whether a call of `accept` may return so. -/
def mayAccept (s : Acceptor) : Except AcceptErrno ℕ → Bool
  | .error .EMFILE => s.Full
  | .error .EAGAIN => ¬ s.Full ∧ s.waiting = []
  | .error .ECONNABORTED => ¬ s.Full ∧ s.waiting ≠ []
  | .error _ => ¬ s.Full
  | .ok fd => ¬ s.Full ∧ s.waiting ≠ [] ∧ fd ∉ s.descriptors

/-- Whether a call of `open` may. -/
def mayOpen (s : Acceptor) : Except AcceptErrno ℕ → Bool
  | .error .EMFILE => s.Full
  | .error .EAGAIN | .error .ECONNABORTED => false
  | .error _ => ¬ s.Full
  | .ok fd => ¬ s.Full ∧ fd ∉ s.descriptors

/-- The oldest peer does not wait any more. -/
def take (s : Acceptor) (fate : Fate) : Acceptor :=
  { s with
    waiting := s.waiting.tail
    taken := s.taken ++ s.waiting.head?.toList.map fun peer => (peer, fate) }

/-- `UnixAcceptReactor::handleRead`, with what `accept` has returned: a descriptor goes to `acceptInLoop`, an
error to the error callback. -/
def handleRead (s : Acceptor) : Except AcceptErrno ℕ → Acceptor
  | .ok fd => { s.take .handed with others := fd :: s.others }
  | .error errno =>
    let s := if errno = .ECONNABORTED then s.take .aborted else s
    if errno.aborts then { s with fault := some .abort }
    else if errno = .EMFILE then { s with callback := .closeIdle }
    else s

/-- The second `accept`, whose error is not looked at. -/
def acceptAgain (s : Acceptor) : Except AcceptErrno ℕ → Acceptor
  | .ok fd => { s.take .refused with callback := .close fd }
  | .error errno =>
    let s := if errno = .ECONNABORTED then s.take .aborted
      else if s.waiting = [] then s else { s with misses := s.misses + 1 }
    { s with callback := .reopen }

/-- The steps of a run. -/
inductive Op
  /-- A peer connects. -/
  | arrive (peer : ℕ)
  /-- The loop handles an event of the listening socket. -/
  | event (result : Except AcceptErrno ℕ)
  /-- The callback makes its next call; `close` has no result. -/
  | call (result : Except AcceptErrno ℕ)
  /-- Another thread opens a descriptor, or closes one. -/
  | opens (fd : ℕ)
  | closes (fd : ℕ)

/-- One step. -/
def step (s : Acceptor) (op : Op) : Option Acceptor :=
  if s.fault = none then
    match op with
    | .arrive peer => some { s with waiting := s.waiting ++ [peer], arrived := s.arrived ++ [peer] }
    | .event result =>
      if s.callback = .returned ∧ s.mayAccept result then some (s.handleRead result) else none
    | .call result =>
      match s.callback with
      | .returned => none
      | .closeIdle => some { s with idleFd := none, callback := .accept }
      | .accept => if s.mayAccept result then some (s.acceptAgain result) else none
      | .close _ => some { s with callback := .reopen }
      | .reopen =>
        if s.mayOpen result then
          match result with
          | .ok fd => some { s with idleFd := some fd, callback := .returned }
          | .error _ => some { s with fault := some .noIdle }
        else none
    | .opens fd => if ¬ s.Full ∧ fd ∉ s.descriptors then some { s with others := fd :: s.others } else none
    | .closes fd => if fd ∈ s.others then some { s with others := s.others.erase fd } else none
  else none

/-- Peers are taken in turn, by the callback whenever one is waiting; the reserve is there between events; and
the owners of descriptors share none. -/
structure Sound (s : Acceptor) : Prop where
  order : s.taken.map Prod.fst ++ s.waiting = s.arrived
  misses : s.misses = 0
  idle : s.callback = .returned → s.idleFd ≠ none
  fault : s.fault ≠ some .noIdle
  nodup : s.descriptors.Nodup
  limit : s.descriptors.length ≤ s.limit

/-- What is not up to the process: the system has no more files, or the call is interrupted. -/
def Failed : Except AcceptErrno ℕ → Prop
  | .ok _ | .error .EMFILE | .error .EAGAIN | .error .ECONNABORTED => False
  | .error _ => True

/-- While the callback is going to need a descriptor, another thread leaves one free when it opens one, and
the system does not fail the callback where that matters. -/
def LeavesFree (s : Acceptor) : Op → Prop
  | .opens _ => s.callback = .accept ∨ s.callback = .reopen → s.descriptors.length + 1 < s.limit
  | .call result =>
    Failed result → s.callback ≠ .reopen ∧ (s.callback = .accept → s.waiting = [])
  | .arrive _ | .event _ | .closes _ => True

/-- The callback goes on. -/
def GoesOn (op : Op) : Prop := ∃ result, op = .call result ∧ ¬ Failed result

variable {s t : Acceptor} {fd : ℕ} {result : Except AcceptErrno ℕ}

/-! ## Descriptors -/

/-- A descriptor is opened that has been free. -/
theorem sound_of_opens (hopens : t.descriptors.Perm (fd :: s.descriptors)) (hnodup : s.descriptors.Nodup)
    (hfree : fd ∉ s.descriptors) (hlength : s.descriptors.length + 1 ≤ t.limit) :
    t.descriptors.Nodup ∧ t.descriptors.length ≤ t.limit :=
  ⟨hopens.nodup_iff.mpr (List.nodup_cons.mpr ⟨hfree, hnodup⟩), hopens.length_eq ▸ hlength⟩

/-- None is, and some may be closed. -/
theorem sound_of_closes (hcloses : t.descriptors.Sublist s.descriptors) (hnodup : s.descriptors.Nodup)
    (hlength : s.descriptors.length ≤ t.limit) : t.descriptors.Nodup ∧ t.descriptors.length ≤ t.limit :=
  ⟨hnodup.sublist hcloses, Nat.le_trans hcloses.length_le hlength⟩

theorem opens_others (hs : t = { s with others := fd :: s.others }) :
    t.descriptors.Perm (fd :: s.descriptors) := by
  subst hs
  exact (List.perm_middle.cons s.acceptFd).trans (List.Perm.swap fd s.acceptFd _)

/-- The one who waits longest is taken. -/
theorem order_take (h : s.taken.map Prod.fst ++ s.waiting = s.arrived) (fate : Fate) :
    (s.take fate).taken.map Prod.fst ++ (s.take fate).waiting = s.arrived := by
  rw [← h]
  unfold take
  cases s.waiting with
  | nil => simp
  | cons peer rest => simp

/-! ## Every step -/

/-- The reserve is closed while the callback needs its place, and the place is free. -/
structure Inv (s : Acceptor) : Prop where
  sound : Sound s
  held : s.idleFd ≠ none ↔ s.callback = .returned ∨ s.callback = .closeIdle
  spare : s.callback = .accept ∨ s.callback = .reopen → ¬ s.Full

theorem inv_initial {limit acceptFd idleFd : ℕ} {others : List ℕ}
    (hnodup : (acceptFd :: idleFd :: others).Nodup) (hlength : others.length + 2 ≤ limit) :
    Inv (initial limit acceptFd idleFd others) := by
  refine ⟨⟨rfl, rfl, fun _ => Option.some_ne_none _, (fun h => nomatch h), hnodup, hlength⟩, ?_, ?_⟩
  · exact iff_of_true (Option.some_ne_none _) (.inl rfl)
  · rintro (h | h) <;> cases h

theorem Inv.take (h : Inv s) (fate : Fate) : Inv (s.take fate) :=
  ⟨⟨order_take h.sound.order fate, h.sound.misses, h.sound.idle, h.sound.fault, h.sound.nodup, h.sound.limit⟩,
    h.held, h.spare⟩

/-- A place that is free may be taken, as long as the callback does not need it. -/
theorem Inv.opens (h : Inv s) (hfull : ¬ s.Full) (hfree : fd ∉ s.descriptors)
    (hspare : s.callback = .accept ∨ s.callback = .reopen → s.descriptors.length + 1 < s.limit) :
    Inv { s with others := fd :: s.others } := by
  have hopens : ({ s with others := fd :: s.others } : Acceptor).descriptors.Perm (fd :: s.descriptors) :=
    opens_others rfl
  obtain ⟨hnodup, hlimit⟩ := sound_of_opens hopens h.sound.nodup hfree (Nat.lt_of_not_le hfull)
  refine ⟨⟨h.sound.order, h.sound.misses, h.sound.idle, h.sound.fault, hnodup, hlimit⟩, h.held,
    fun hneeds => ?_⟩
  unfold Full
  rw [hopens.length_eq]
  exact Nat.not_le.mpr (hspare hneeds)

/-- An event of the listening socket: a peer is handed on, or the callback begins, or nothing happens. -/
theorem Inv.handleRead (h : Inv s) (hcallback : s.callback = .returned)
    (hresult : s.mayAccept result = true) : Inv (s.handleRead result) := by
  cases result with
  | ok fd =>
    obtain ⟨hfull, -, hfree⟩ := of_decide_eq_true hresult
    refine (h.take .handed).opens hfull hfree fun hneeds => ?_
    rcases hneeds with hneeds | hneeds <;> cases hcallback.symm.trans hneeds
  | error errno =>
    have htaken : Inv (if errno = .ECONNABORTED then s.take .aborted else s) := by
      split_ifs
      · exact h.take .aborted
      · exact h
    have hsame : (if errno = .ECONNABORTED then s.take .aborted else s).callback = .returned := by
      split_ifs <;> exact hcallback
    unfold Acceptor.handleRead
    dsimp only
    generalize (if errno = .ECONNABORTED then s.take .aborted else s) = s₁ at htaken hsame ⊢
    split_ifs
    · exact ⟨⟨htaken.sound.order, htaken.sound.misses, htaken.sound.idle, (fun h => nomatch h),
        htaken.sound.nodup, htaken.sound.limit⟩, htaken.held, htaken.spare⟩
    · have hdescriptors : { s₁ with callback := .closeIdle }.descriptors = s₁.descriptors := by
        unfold descriptors own
        rw [hsame]
      refine ⟨⟨htaken.sound.order, htaken.sound.misses, (fun h => nomatch h), htaken.sound.fault, ?_, ?_⟩,
        ?_, ?_⟩
      · exact hdescriptors ▸ htaken.sound.nodup
      · exact hdescriptors ▸ htaken.sound.limit
      · exact iff_of_true (htaken.held.mpr (.inl hsame)) (.inr rfl)
      · rintro (h | h) <;> cases h
    · exact htaken

/-- The callback closes the reserve, which makes a place. -/
theorem Inv.closeIdle (h : Inv s) (hcallback : s.callback = .closeIdle) :
    Inv { s with idleFd := none, callback := .accept } := by
  obtain ⟨idleFd, hidle⟩ := Option.ne_none_iff_exists'.mp (h.held.mpr (.inr hcallback))
  have hown : s.own = [] := by
    unfold own
    rw [hcallback]
  have hbefore : s.descriptors = s.acceptFd :: idleFd :: s.others := by
    unfold descriptors
    rw [hown, hidle]
    rfl
  have hlimit := h.sound.limit
  have hnodup := h.sound.nodup
  rw [hbefore] at hlimit hnodup
  have hfewer : (s.acceptFd :: s.others).length < s.limit := hlimit
  refine ⟨⟨h.sound.order, h.sound.misses, (fun h => nomatch h), h.sound.fault, ?_, Nat.le_of_lt hfewer⟩,
    iff_of_false (not_not_intro rfl) ?_, fun _ => Nat.not_le.mpr hfewer⟩
  · exact hnodup.sublist ((List.sublist_cons_self _ _).cons_cons _)
  · rintro (h | h) <;> cases h

/-- The callback closes what it has accepted, which makes its place free again. -/
theorem Inv.close (h : Inv s) (hcallback : s.callback = .close fd) : Inv { s with callback := .reopen } := by
  have hidle : s.idleFd = none := by
    by_contra hheld
    rcases h.held.mp hheld with hother | hother <;> cases hcallback.symm.trans hother
  have hown : s.own = [fd] := by
    unfold own
    rw [hcallback]
  have hbefore : s.descriptors = s.acceptFd :: fd :: s.others := by
    unfold descriptors
    rw [hown, hidle]
    rfl
  have hafter : { s with callback := .reopen }.descriptors = s.acceptFd :: s.others := by
    unfold descriptors
    rw [hidle]
    rfl
  have hlimit := h.sound.limit
  have hnodup := h.sound.nodup
  rw [hbefore] at hlimit hnodup
  have hfewer : { s with callback := .reopen }.descriptors.length < s.limit := by
    rw [hafter]
    exact hlimit
  refine ⟨⟨h.sound.order, h.sound.misses, (fun h => nomatch h), h.sound.fault, ?_, Nat.le_of_lt hfewer⟩,
    iff_of_false (not_not_intro hidle) ?_, fun _ => Nat.not_le.mpr hfewer⟩
  · rw [hafter]
    exact hnodup.sublist ((List.sublist_cons_self _ _).cons_cons _)
  · rintro (h | h) <;> cases h

/-- While the callback needs a place, the reserve is closed and nothing else is its own. -/
theorem Inv.descriptors_eq (h : Inv s) (hneeds : s.callback = .accept ∨ s.callback = .reopen) :
    s.idleFd = none ∧ s.descriptors = s.acceptFd :: s.others := by
  have hidle : s.idleFd = none := by
    by_contra hheld
    rcases h.held.mp hheld with hother | hother <;> rcases hneeds with hneeds | hneeds <;>
      cases hneeds.symm.trans hother
  refine ⟨hidle, ?_⟩
  unfold descriptors own
  rcases hneeds with hneeds | hneeds <;> rw [hneeds, hidle] <;> rfl

/-- The second `accept` takes the peer that waits longest, if there is one. -/
theorem Inv.acceptAgain (h : Inv s) (hcallback : s.callback = .accept) (hresult : s.mayAccept result = true)
    (hsystem : Failed result → s.waiting = []) : Inv (s.acceptAgain result) := by
  obtain ⟨hidle, hbefore⟩ := h.descriptors_eq (.inl hcallback)
  have hfull := h.spare (.inl hcallback)
  cases result with
  | ok fd =>
    obtain ⟨-, -, hfree⟩ := of_decide_eq_true hresult
    have hopens : (s.acceptAgain (.ok fd)).descriptors.Perm (fd :: s.descriptors) := by
      rw [hbefore]
      show (s.acceptFd :: (s.idleFd.toList ++ [fd] ++ s.others)).Perm _
      rw [hidle]
      exact List.Perm.swap fd s.acceptFd s.others
    obtain ⟨hnodup, hlimit⟩ := sound_of_opens hopens h.sound.nodup hfree (Nat.lt_of_not_le hfull)
    refine ⟨⟨order_take h.sound.order .refused, h.sound.misses, (fun h => nomatch h), h.sound.fault, hnodup,
      hlimit⟩, iff_of_false (not_not_intro hidle) ?_, ?_⟩
    · rintro (h | h) <;> cases h
    · rintro (h | h) <;> cases h
  | error errno =>
    -- Where nothing is taken, nothing was waiting.
    have hwaiting : errno ≠ .ECONNABORTED → s.waiting = [] := by
      intro hne
      cases errno with
      | EMFILE => exact absurd (of_decide_eq_true hresult) hfull
      | EAGAIN => exact (of_decide_eq_true hresult).2
      | ECONNABORTED => exact absurd rfl hne
      | _ => exact hsystem trivial
    have hcalled : s.acceptAgain (.error errno) =
        { (if errno = .ECONNABORTED then s.take .aborted else s) with callback := .reopen } := by
      unfold Acceptor.acceptAgain
      dsimp only
      by_cases hne : errno = .ECONNABORTED
      · rw [if_pos hne, if_pos hne]
      · rw [if_neg hne, if_neg hne, if_pos (hwaiting hne)]
    have htaken : Inv (if errno = .ECONNABORTED then s.take .aborted else s) := by
      split_ifs
      · exact h.take .aborted
      · exact h
    have hsame : (if errno = .ECONNABORTED then s.take .aborted else s).callback = .accept := by
      split_ifs <;> exact hcallback
    rw [hcalled]
    generalize (if errno = .ECONNABORTED then s.take .aborted else s) = s₁ at htaken hsame ⊢
    obtain ⟨hidle₁, hbefore₁⟩ := htaken.descriptors_eq (.inl hsame)
    have hafter : { s₁ with callback := .reopen }.descriptors = s₁.descriptors := by
      rw [hbefore₁]
      show s₁.acceptFd :: (s₁.idleFd.toList ++ [] ++ s₁.others) = _
      rw [hidle₁]
      rfl
    refine ⟨⟨htaken.sound.order, htaken.sound.misses, (fun h => nomatch h), htaken.sound.fault,
      hafter ▸ htaken.sound.nodup, hafter ▸ htaken.sound.limit⟩, iff_of_false (not_not_intro hidle₁) ?_,
      fun _ => ?_⟩
    · rintro (h | h) <;> cases h
    · unfold Full
      rw [hafter]
      exact htaken.spare (.inl hsame)

/-- The callback has its reserve again. -/
theorem Inv.reopen (h : Inv s) (hcallback : s.callback = .reopen) (hfree : fd ∉ s.descriptors) :
    Inv { s with idleFd := some fd, callback := .returned } := by
  obtain ⟨-, hbefore⟩ := h.descriptors_eq (.inr hcallback)
  have hopens :
      { s with idleFd := some fd, callback := .returned }.descriptors.Perm (fd :: s.descriptors) := by
    rw [hbefore]
    exact List.Perm.swap fd s.acceptFd s.others
  obtain ⟨hnodup, hlimit⟩ :=
    sound_of_opens hopens h.sound.nodup hfree (Nat.lt_of_not_le (h.spare (.inr hcallback)))
  refine ⟨⟨h.sound.order, h.sound.misses, fun _ => Option.some_ne_none fd, h.sound.fault, hnodup, hlimit⟩,
    iff_of_true (Option.some_ne_none fd) (.inl rfl), ?_⟩
  rintro (h | h) <;> cases h

theorem Inv.step (h : Inv s) {op : Op} (hop : LeavesFree s op) (hs : s.step op = some t) : Inv t := by
  unfold Acceptor.step at hs
  split_ifs at hs with hf
  cases op with
  | arrive peer =>
    cases hs
    refine ⟨⟨?_, h.sound.misses, h.sound.idle, h.sound.fault, h.sound.nodup, h.sound.limit⟩, h.held, h.spare⟩
    show _ ++ (s.waiting ++ [peer]) = s.arrived ++ [peer]
    rw [← List.append_assoc, h.sound.order]
  | event result =>
    dsimp only at hs
    split_ifs at hs with hevent
    cases hs
    exact h.handleRead hevent.1 hevent.2
  | call result =>
    dsimp only at hs
    split at hs
    · cases hs
    · rename_i hcallback
      cases hs
      exact h.closeIdle hcallback
    · rename_i hcallback
      split_ifs at hs with hresult
      cases hs
      exact h.acceptAgain hcallback hresult fun hfailed => (hop hfailed).2 hcallback
    · rename_i hcallback
      cases hs
      exact h.close hcallback
    · rename_i hcallback
      split_ifs at hs with hresult
      cases result with
      | ok fd =>
        cases hs
        exact h.reopen hcallback (of_decide_eq_true hresult).2
      | error errno =>
        exfalso
        cases errno with
        -- The place of the reserve descriptor is still free.
        | EMFILE => exact h.spare (.inr hcallback) (of_decide_eq_true hresult)
        | EAGAIN | ECONNABORTED => exact Bool.noConfusion hresult
        | _ => exact (hop trivial).1 hcallback
  | opens fd =>
    dsimp only at hs
    split_ifs at hs with hopen
    cases hs
    exact h.opens hopen.1 hopen.2 hop
  | closes fd =>
    dsimp only at hs
    split_ifs at hs with hclose
    cases hs
    have hcloses : { s with others := s.others.erase fd }.descriptors.Sublist s.descriptors :=
      ((List.erase_sublist ..).append_left _).cons_cons s.acceptFd
    obtain ⟨hnodup, hlimit⟩ := sound_of_closes hcloses h.sound.nodup h.sound.limit
    refine ⟨⟨h.sound.order, h.sound.misses, h.sound.idle, h.sound.fault, hnodup, hlimit⟩, h.held,
      fun hneeds => ?_⟩
    exact fun hfull => h.spare hneeds (Nat.le_trans hfull hcloses.length_le)

/-! ## What breaks it -/

theorem not_sound_noIdle (h : s.fault = some .noIdle) : ¬ Sound s := fun hsound => hsound.fault h

/-- Without a place for the reserve, the next call ends the program. -/
theorem breaks_of_reopen (hf : s.fault = none) (hcallback : s.callback = .reopen) (hfull : s.Full) :
    Machine.Breaks step Sound GoesOn s := by
  have hstep : s.step (.call (.error .EMFILE)) = some { s with fault := some .noIdle } := by
    unfold Acceptor.step
    rw [if_pos hf]
    dsimp only
    rw [hcallback]
    exact if_pos (decide_eq_true hfull)
  exact .of_step ⟨_, rfl, id⟩ hstep (Machine.breaks_of_not (not_sound_noIdle rfl))

/-- Without a place for the second `accept`, the one after that does. -/
theorem breaks_of_accept (hf : s.fault = none) (hcallback : s.callback = .accept) (hidle : s.idleFd = none)
    (hfull : s.Full) : Machine.Breaks step Sound GoesOn s := by
  have hstep : s.step (.call (.error .EMFILE)) = some (s.acceptAgain (.error .EMFILE)) := by
    unfold Acceptor.step
    rw [if_pos hf]
    dsimp only
    rw [hcallback]
    exact if_pos (decide_eq_true hfull)
  have hbefore : s.descriptors = s.acceptFd :: s.others := by
    unfold descriptors own
    rw [hcallback, hidle]
    rfl
  have hfull' : s.limit ≤ (s.acceptFd :: s.others).length := hbefore ▸ hfull
  have hcalled : s.acceptAgain (.error .EMFILE) =
      { (if s.waiting = [] then s else { s with misses := s.misses + 1 }) with callback := .reopen } := rfl
  refine .of_step ⟨_, rfl, id⟩ hstep (breaks_of_reopen ?_ rfl ?_) <;> rw [hcalled]
  · split_ifs <;> exact hf
  · unfold Full descriptors own
    split_ifs <;> dsimp only <;> rw [hidle] <;> exact hfull'

theorem Inv.breaks (h : Inv s) {op : Op} (hop : ¬ LeavesFree s op) (hs : s.step op = some t) :
    Machine.Breaks Acceptor.step Sound GoesOn t := by
  unfold Acceptor.step at hs
  split_ifs at hs with hf
  cases op with
  | arrive peer => exact absurd trivial hop
  | event result => exact absurd trivial hop
  | closes fd => exact absurd trivial hop
  | opens fd =>
    dsimp only at hs
    split_ifs at hs
    cases hs
    obtain ⟨hneeds, hlast⟩ := Classical.not_imp.mp hop
    have hfull : ({ s with others := fd :: s.others } : Acceptor).Full := by
      unfold Full
      rw [(opens_others (s := s) rfl).length_eq]
      exact Nat.le_of_not_lt hlast
    rcases hneeds with hcallback | hcallback
    · exact breaks_of_accept hf hcallback (h.descriptors_eq (.inl hcallback)).1 hfull
    · exact breaks_of_reopen hf hcallback hfull
  | call result =>
    obtain ⟨hfailed, hmatters⟩ := Classical.not_imp.mp hop
    dsimp only at hs
    split at hs
    · cases hs
    · rename_i hcallback
      rw [hcallback] at hmatters
      exact absurd ⟨ErrorCallback.noConfusion, ErrorCallback.noConfusion⟩ hmatters
    · rename_i hcallback
      split_ifs at hs
      cases hs
      -- A peer has been waiting, and is passed over.
      have hwaiting : s.waiting ≠ [] := fun hnone =>
        hmatters ⟨fun hreopen => (nomatch hcallback.symm.trans hreopen), fun _ => hnone⟩
      refine Machine.breaks_of_not fun hsound => ?_
      have hmisses : (s.acceptAgain result).misses = s.misses + 1 := by
        cases result with
        | ok fd => exact hfailed.elim
        | error errno =>
          unfold Acceptor.acceptAgain
          dsimp only
          rw [if_neg (fun heq => by rw [heq] at hfailed; exact hfailed), if_neg hwaiting]
      exact Nat.succ_ne_zero _ (hmisses.symm.trans hsound.misses)
    · rename_i hcallback
      rw [hcallback] at hmatters
      exact absurd ⟨ErrorCallback.noConfusion, ErrorCallback.noConfusion⟩ hmatters
    · split_ifs at hs
      cases result with
      | ok fd => exact hfailed.elim
      | error errno =>
        cases hs
        exact Machine.breaks_of_not (not_sound_noIdle rfl)

/-- The acceptor is sound, however far its callback goes on after that, in exactly those runs in which the
other threads leave a descriptor free where the callback is going to need one, and the system does not fail
it. -/
theorem robust_iff_leavesFree (limit acceptFd idleFd : ℕ) (others : List ℕ)
    (hnodup : (acceptFd :: idleFd :: others).Nodup) (hlength : others.length + 2 ≤ limit) (ops : List Op) :
    Machine.Robust step Sound GoesOn (initial limit acceptFd idleFd others) ops ↔
      Machine.Meets step LeavesFree (initial limit acceptFd idleFd others) ops := by
  have hgoesOn : ∀ s op, GoesOn op → LeavesFree s op := by
    rintro s op ⟨result, rfl, hresult⟩
    exact fun hfailed => absurd hfailed hresult
  exact Machine.robust_iff_meets (I := Inv) (fun _ h => h.sound) hgoesOn
    (fun _ _ _ h hop hs => h.step hop hs) (fun _ _ _ h hop hs => h.breaks hop hs)
    (inv_initial hnodup hlength)

/-- A process that has four descriptors. The fourth is a connection; the next peer is refused, while another
thread closes the connection and opens something else. -/
theorem robust_iff_four :
    Machine.Robust step Sound GoesOn (initial 4 3 4 [0])
        [.arrive 7, .event (.ok 5), .arrive 8, .event (.error .EMFILE), .call (.ok 0), .closes 5,
          .call (.ok 6),
          .opens 5, .call (.ok 0), .call (.ok 4)] ↔
      Machine.Meets step LeavesFree (initial 4 3 4 [0])
        [.arrive 7, .event (.ok 5), .arrive 8, .event (.error .EMFILE), .call (.ok 0), .closes 5,
          .call (.ok 6),
          .opens 5, .call (.ok 0), .call (.ok 4)] :=
  robust_iff_leavesFree 4 3 4 [0] (by decide) (by decide) _

end Acceptor

end Hulatang
