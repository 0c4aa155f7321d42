import Mathlib.Order.Basic
import Mathlib.Tactic.SplitIfs
import Hulatang.Io.Connector

/-!
# One outcome for each attempt

What an attempt is to come to, `OneOutcome`, and the condition on each call that it depends on,
`Sound`. On Unix the event must not be one of those that the connector's channel cannot take: a hang-up
calls the unset `closeCallback`, an end of file aborts, and an error that comes with `POLLOUT` is handled
twice. An event after the attempt has failed, which a level-triggered poll reports on a channel that is
kept for the retry, is a second outcome. On Windows a `ConnectEx` must not fail at once, because the
model is then set on a channel that is gone.
-/

namespace Hulatang.Connector

/-- Each attempt has ended once, but the one that is `Connecting`; nothing has gone wrong; and the state
is `Disconnected` while a retry timer is pending. -/
structure OneOutcome (c : Connector) : Prop where
  fault : c.fault = none
  current : ∀ n ∈ c.attempts.head?, n = if c.state = .Connecting then 0 else 1
  earlier : ∀ n ∈ c.attempts.tail, n = 1
  timers : 0 < c.retryTimers → c.state = .Disconnected

/-- An attempt may start when no other one goes on and, unless it fails at once on Unix, no retry timer
stays pending; on Windows it must not fail at once. -/
def MayStart (c : Connector) (retryTimers : ℕ) (r : ConnectResult) : Prop :=
  c.state = .Disconnected ∧
    match c.platform, r with
    | .unix, .failed _ => True
    | .windows, .failed _ => False
    | _, .accepted => retryTimers = 0

/-- The calls that keep to one outcome. -/
def Sound (c : Connector) : Op → Prop
  | .start r => c.MayStart c.retryTimers r
  | .timer r => c.MayStart (c.retryTimers - 1) r
  | .event revent soError =>
    match Reactor.firstCall revent with
    | some .handleClose => False
    | some .handleRead => False
    | some .handleError => c.state = .Connecting ∧ Reactor.callsWrite revent = false ∧
        needToClose (.generic soError) = false
    | none => Reactor.callsWrite revent = true → c.state = .Connecting
  | .completion _ => True

/-- The invariant: the channel is there while an attempt goes on, and given away once it has
succeeded. -/
structure ConnectInv (c : Connector) : Prop where
  oneOutcome : OneOutcome c
  connecting : c.state = .Connecting → c.channel = true
  connected : c.state = .Connected → c.channel = false
  attempted : c.channel = true → c.attempts ≠ []
  outstanding : c.outstanding = if c.platform = .windows ∧ c.state = .Connecting then 1 else 0

theorem connectInv_initial (platform : Platform) : ConnectInv (initial platform) := by
  constructor <;> simp [initial]
  constructor <;> simp

/-! ## Within an attempt -/

/-- Between the start of an attempt, or the event that decides it, and its outcome. -/
structure Open (c : Connector) : Prop where
  fault : c.fault = none
  attempts : ∃ rest, c.attempts = 0 :: rest ∧ ∀ n ∈ rest, n = 1
  channel : c.channel = true
  outstanding : c.outstanding = 0

/-- An attempt that fails leaves a retry timer, on the old channel or on none. -/
theorem Open.handleError {c : Connector} (h : Open c) (ec : ErrorCondition) :
    ConnectInv (c.handleError ec) := by
  obtain ⟨rest, hattempts, hrest⟩ := h.attempts
  have hout := h.outstanding
  have hfault := h.fault
  unfold Connector.handleError
  dsimp only
  -- Whether or not the channel is given up, the attempt has ended once and a timer is pending.
  split_ifs
  · refine ⟨⟨hfault, ?_, ?_, fun _ => rfl⟩, nofun, nofun, nofun, ?_⟩
    all_goals simp [retry, finish, hattempts]
    exact hrest
  · refine ⟨⟨hfault, ?_, ?_, fun _ => rfl⟩, nofun, nofun, ?_, ?_⟩
    all_goals simp [retry, finish, hattempts, hout]
    exact hrest

/-- An attempt that succeeds gives the channel away. -/
theorem Open.connected {c : Connector} (h : Open c) (htimers : c.retryTimers = 0) :
    ConnectInv c.connected := by
  obtain ⟨rest, hattempts, hrest⟩ := h.attempts
  have hout := h.outstanding
  have hfault := h.fault
  unfold Connector.connected
  simp only [finish, h.channel, if_true]
  refine ⟨⟨hfault, ?_, ?_, ?_⟩, nofun, fun _ => rfl, nofun, ?_⟩
  all_goals simp [hattempts, hout, htimers]
  exact hrest

/-- An attempt goes on. -/
theorem Open.connecting {c : Connector} (h : Open c) (htimers : c.retryTimers = 0) (out : ℕ)
    (hout : out = if c.platform = .windows then 1 else 0) :
    ConnectInv ({ c with outstanding := out }.connecting) := by
  obtain ⟨rest, hattempts, hrest⟩ := h.attempts
  have hfault := h.fault
  unfold Connector.connecting
  simp only [h.channel, if_true]
  refine ⟨⟨hfault, ?_, ?_, ?_⟩, fun _ => rfl, nofun, ?_, ?_⟩
  all_goals simp [hattempts, hout, htimers]
  exact hrest

/-- The attempt that goes on when an event is delivered. -/
theorem ConnectInv.open {c : Connector} (h : ConnectInv c) (hs : c.state = .Connecting)
    (soError : Option Errc) : Open { c with soError := soError, outstanding := 0 } := by
  have hchannel := h.connecting hs
  obtain ⟨n, rest, hattempts⟩ := List.exists_cons_of_ne_nil (h.attempted hchannel)
  have hcurrent := h.oneOutcome.current n (by rw [hattempts]; rfl)
  have hearlier := h.oneOutcome.earlier
  rw [hattempts] at hearlier
  rw [if_pos hs] at hcurrent
  exact ⟨h.oneOutcome.fault, ⟨rest, by rw [← hcurrent]; exact hattempts, hearlier⟩, hchannel, rfl⟩

theorem ConnectInv.no_timers {c : Connector} (h : ConnectInv c) (hs : c.state = .Connecting) :
    c.retryTimers = 0 := by
  by_contra hne
  have hdisconnected := h.oneOutcome.timers (Nat.pos_of_ne_zero hne)
  rw [hs] at hdisconnected
  cases hdisconnected

/-- Once the earlier attempts have ended, the next one is open. -/
theorem ConnectInv.open_next {c : Connector} (h : ConnectInv c) (hs : c.state = .Disconnected) :
    Open { c with channel := true, attempts := 0 :: c.attempts } := by
  have hout := h.outstanding
  rw [hs] at hout
  refine ⟨h.oneOutcome.fault, ⟨c.attempts, rfl, fun n hn => ?_⟩, rfl, by simpa using hout⟩
  have hcurrent := h.oneOutcome.current
  have hearlier := h.oneOutcome.earlier
  rw [hs] at hcurrent
  -- In `Disconnected` the latest attempt has ended, like those before it.
  cases hattempts : c.attempts with
  | nil => simp [hattempts] at hn
  | cons k rest =>
    rw [hattempts] at hcurrent hearlier hn
    rcases List.mem_cons.mp hn with rfl | hn
    · simpa using hcurrent n rfl
    · exact hearlier n hn

/-! ## What is not one outcome -/

theorem not_oneOutcome_fail (c : Connector) (fault : ConnectorFault) :
    ¬ OneOutcome (c.fail fault) := fun h => absurd h.fault (by simp [fail])

/-- A second end of an attempt. -/
theorem not_oneOutcome_of_head {c : Connector} {n : ℕ} {rest : List ℕ}
    (h : c.attempts = (n + 2) :: rest) : ¬ OneOutcome c := by
  intro ho
  have hcurrent := ho.current (n + 2) (by rw [h]; rfl)
  split_ifs at hcurrent
  omega

/-- An attempt that has ended fails again. -/
theorem not_oneOutcome_handleError (c : Connector) {n : ℕ} {rest : List ℕ}
    (h : c.attempts = (n + 1) :: rest) (ec : ErrorCondition) : ¬ OneOutcome (c.handleError ec) := by
  have hattempts : (c.handleError ec).attempts = (n + 2) :: rest := by
    unfold Connector.handleError
    dsimp only
    split_ifs <;> simp [retry, finish, h]
  exact not_oneOutcome_of_head hattempts

/-- An attempt that has ended succeeds. -/
theorem not_oneOutcome_connected (c : Connector) {n : ℕ} {rest : List ℕ}
    (h : c.attempts = (n + 1) :: rest) : ¬ OneOutcome c.connected := by
  have hattempts : c.connected.attempts = (n + 2) :: rest := by
    unfold Connector.connected
    dsimp only
    split_ifs <;> simp [finish, fail, h]
  exact not_oneOutcome_of_head hattempts

/-- When no attempt goes on, the last one has ended. -/
theorem ConnectInv.ended {c : Connector} (h : ConnectInv c) (hchannel : c.channel = true)
    (hs : c.state ≠ .Connecting) : ∃ rest, c.attempts = 1 :: rest := by
  obtain ⟨n, rest, hattempts⟩ := List.exists_cons_of_ne_nil (h.attempted hchannel)
  have hcurrent := h.oneOutcome.current n (by rw [hattempts]; rfl)
  rw [if_neg hs] at hcurrent
  exact ⟨rest, by rw [← hcurrent]; exact hattempts⟩

/-- An attempt goes on beside a pending retry timer. -/
theorem not_oneOutcome_connecting {c : Connector} (h : 0 < c.retryTimers) :
    ¬ OneOutcome c.connecting := by
  intro ho
  have htimers := ho.timers
  unfold Connector.connecting at htimers
  dsimp only at htimers
  split_ifs at htimers <;> exact absurd (htimers h) (by simp [fail])

/-! ## Every call -/

/-- A new attempt keeps to one outcome exactly when it may start. -/
theorem ConnectInv.startInLoop {c : Connector} (h : ConnectInv c) (r : ConnectResult) :
    (OneOutcome (c.startInLoop r) ↔ c.MayStart c.retryTimers r) ∧
      (c.MayStart c.retryTimers r → ConnectInv (c.startInLoop r)) := by
  unfold Connector.startInLoop MayStart
  by_cases hne : c.state ≠ .Disconnected
  · rw [if_neg hne]
    exact ⟨⟨fun ho => absurd ho (not_oneOutcome_fail c _), fun hg => absurd hg.1 hne⟩,
      fun hg => absurd hg.1 hne⟩
  have hs : c.state = .Disconnected := Decidable.not_not.mp hne
  rw [if_pos hs]
  have hopen := h.open_next hs
  -- An attempt that is not refused at once goes on, and a pending timer would interrupt it.
  have haccepted (out : ℕ) (hout : out = if c.platform = .windows then 1 else 0)
      (hconnect : c.connect r = { c with
        channel := true, attempts := 0 :: c.attempts, outstanding := out }.connecting) :
      (OneOutcome (c.connect r) ↔ c.retryTimers = 0) ∧
        (c.retryTimers = 0 → ConnectInv (c.connect r)) := by
    rw [hconnect]
    have hinv (ht : c.retryTimers = 0) := hopen.connecting ht out hout
    refine ⟨⟨fun ho => ?_, fun ht => (hinv ht).oneOutcome⟩, hinv⟩
    by_contra hne
    refine not_oneOutcome_connecting ?_ ho
    exact Nat.pos_of_ne_zero hne
  cases hp : c.platform <;> cases r
  case unix.accepted =>
    have hout : c.outstanding = 0 := by simpa [hs] using h.outstanding
    simpa [hs] using haccepted 0 (by simp [hp]) (by simp [connect, createConnect, hp, hout])
  case unix.failed err =>
    have hconnect : c.connect (.failed err) =
        { c with channel := true, attempts := 0 :: c.attempts }.handleError (.system err) := by
      simp [connect, createConnect, hp]
    rw [hconnect]
    have hinv := hopen.handleError (.system err)
    exact ⟨⟨fun _ => ⟨hs, trivial⟩, fun _ => hinv.oneOutcome⟩, fun _ => hinv⟩
  case windows.accepted =>
    have hout : c.outstanding = 0 := by simpa [hs] using h.outstanding
    simpa [hs] using haccepted 1 (by simp [hp]) (by simp [connect, createConnect, hp, hout])
  case windows.failed err =>
    -- The channel is gone when `connecting` sets its handler.
    have hconnect : ∃ c' : Connector, c.connect (.failed err) = c'.fail .nullChannel := by
      simp [connect, createConnect, hp, Connector.handleError, needToClose, retry, Connector.connecting]
      exact ⟨_, rfl⟩
    obtain ⟨c', hc'⟩ := hconnect
    rw [hc']
    exact ⟨⟨fun ho => absurd ho (not_oneOutcome_fail c' _), fun hg => hg.2.elim⟩, fun hg => hg.2.elim⟩

/-- A call of `handleWrite` keeps to one outcome exactly when an attempt goes on. -/
theorem ConnectInv.unixHandleWrite {c : Connector} (h : ConnectInv c) (hp : c.platform = .unix)
    (hchannel : c.channel = true) (soError : Option Errc) :
    (OneOutcome ({ c with soError := soError }.unixHandleWrite) ↔ c.state = .Connecting) ∧
      (c.state = .Connecting → ConnectInv ({ c with soError := soError }.unixHandleWrite)) := by
  have hout : c.outstanding = 0 := by simpa [hp] using h.outstanding
  have hinv (hs : c.state = .Connecting) :
      ConnectInv ({ c with soError := soError }.unixHandleWrite) := by
    have hopen (e : Option Errc) : Open { c with soError := e } := hout ▸ h.open hs e
    have htimers := h.no_timers hs
    unfold Connector.unixHandleWrite
    cases soError with
    | none => exact (hopen none).connected htimers
    | some e => exact (hopen none).handleError (.generic none)
  refine ⟨⟨fun ho => ?_, fun hs => (hinv hs).oneOutcome⟩, hinv⟩
  -- The attempt has ended before, so this is its second outcome, whichever it is.
  by_contra hs
  obtain ⟨rest, hended⟩ := h.ended hchannel hs
  unfold Connector.unixHandleWrite at ho
  cases soError with
  | none => exact not_oneOutcome_connected { c with soError := none } hended ho
  | some e => exact not_oneOutcome_handleError { c with soError := none } hended _ ho

/-- An event keeps to one outcome exactly when it is sound. -/
theorem ConnectInv.event {c : Connector} (h : ConnectInv c) (hp : c.platform = .unix)
    (hchannel : c.channel = true) (revent : Revent) (soError : Option Errc) :
    (OneOutcome ({ c with soError := soError }.handleEvent revent) ↔ c.Sound (.event revent soError)) ∧
      (c.Sound (.event revent soError) →
        ConnectInv ({ c with soError := soError }.handleEvent revent)) := by
  have hout : c.outstanding = 0 := by simpa [hp] using h.outstanding
  have hfault := h.oneOutcome.fault
  unfold Sound Connector.handleEvent
  dsimp only
  generalize Reactor.firstCall revent = call
  generalize Reactor.callsWrite revent = writes
  cases call with
  | none =>
    cases writes with
    | false =>
      have hsame : ConnectInv { c with soError := soError } :=
        { h with oneOutcome := { h.oneOutcome with } }
      have hboth := And.intro hsame.oneOutcome hsame
      simpa [Connector.firstCall, hfault, hchannel] using hboth
    | true => simpa [Connector.firstCall, hfault, hchannel] using h.unixHandleWrite hp hchannel soError
  | some call =>
    cases call with
    -- The connector has set neither of these callbacks to something that returns.
    | handleClose | handleRead =>
      simp only [Connector.firstCall, fail, Option.isSome_some, if_true]
      exact ⟨⟨fun ho => absurd ho.fault (by simp), False.elim⟩, False.elim⟩
    | handleError =>
      -- Reading `SO_ERROR` has cleared it: a `handleWrite` on the same event finds a success.
      have hread : Connector.firstCall { c with soError := soError } (some .handleError) =
          { c with soError := none }.handleError (.generic soError) := rfl
      rw [hread]
      have hfault' : ({ c with soError := none }.handleError (.generic soError)).fault.isSome = false := by
        unfold Connector.handleError
        dsimp only
        split_ifs <;> simp [retry, finish, hfault]
      rw [hfault', if_neg (by simp)]
      cases hclose : needToClose (.generic soError) with
      | true =>
        -- The channel is destroyed in the middle of its own `handleEvent`.
        have hgone : ({ c with soError := none }.handleError (.generic soError)).channel = false := by
          simp [Connector.handleError, hclose, retry]
        rw [if_pos hgone]
        exact ⟨⟨fun ho => absurd ho (not_oneOutcome_fail _ _), fun hg => by simp at hg⟩,
          fun hg => by simp at hg⟩
      | false =>
        have hkept : ({ c with soError := none }.handleError (.generic soError)).channel = true := by
          simp [Connector.handleError, hclose, retry, finish, hchannel]
        rw [if_neg (by simp [hkept])]
        obtain ⟨n, rest, hattempts⟩ := List.exists_cons_of_ne_nil (h.attempted hchannel)
        cases writes with
        | true =>
          rw [if_pos rfl]
          have hended : ({ c with soError := none }.handleError (.generic soError)).attempts =
              (n + 1) :: rest := by
            simp [Connector.handleError, hclose, retry, finish, hattempts]
          have hcleared : ({ c with soError := none }.handleError (.generic soError)).soError = none := by
            simp [Connector.handleError, hclose, retry, finish]
          unfold Connector.unixHandleWrite
          rw [hcleared]
          exact ⟨⟨fun ho => absurd ho (not_oneOutcome_connected _ hended), fun hg => by simp at hg⟩,
            fun hg => by simp at hg⟩
        | false =>
          rw [if_neg (by simp)]
          have hinv (hs : c.state = .Connecting) :
              ConnectInv ({ c with soError := none }.handleError (.generic soError)) :=
            (show Open { c with soError := none } from hout ▸ h.open hs none).handleError _
          refine ⟨⟨fun ho => ⟨?_, rfl, rfl⟩, fun hg => (hinv hg.1).oneOutcome⟩, fun hg => hinv hg.1⟩
          by_contra hs
          obtain ⟨rest', hended⟩ := h.ended hchannel hs
          exact not_oneOutcome_handleError { c with soError := none } hended _ ho

/-- A completion is an outcome of the attempt that goes on. -/
theorem ConnectInv.completion {c : Connector} (h : ConnectInv c) (hout : 0 < c.outstanding)
    (err : Option WsaError) :
    ConnectInv ({ c with outstanding := c.outstanding - 1 }.wsHandleWrite err) := by
  have hone := h.outstanding
  obtain ⟨hp, hs⟩ : c.platform = .windows ∧ c.state = .Connecting := by
    -- A `ConnectEx` is outstanding only while an attempt goes on.
    by_contra hne
    rw [if_neg hne] at hone
    omega
  rw [if_pos ⟨hp, hs⟩] at hone
  have hopen : Open { c with outstanding := c.outstanding - 1 } := by
    rw [hone]
    exact h.open hs c.soError
  have htimers := h.no_timers hs
  unfold Connector.wsHandleWrite
  cases err with
  | none => exact hopen.connected htimers
  | some err => exact hopen.handleError err.condition

/-- A call keeps to one outcome exactly when it is sound. -/
theorem ConnectInv.step {c c' : Connector} {op : Op} (h : ConnectInv c) (hs : c.step op = some c') :
    (OneOutcome c' ↔ c.Sound op) ∧ (c.Sound op → ConnectInv c') := by
  unfold Connector.step at hs
  rw [if_neg (by simp [h.oneOutcome.fault])] at hs
  cases op with
  | start r =>
    cases hs
    exact h.startInLoop r
  | timer r =>
    dsimp only at hs
    split_ifs at hs with htimers
    cases hs
    have hstate := h.oneOutcome.timers htimers
    have hfired : ConnectInv { c with retryTimers := c.retryTimers - 1 } :=
      { h with oneOutcome := { h.oneOutcome with timers := fun _ => hstate } }
    exact hfired.startInLoop r
  | event revent soError =>
    dsimp only at hs
    split_ifs at hs with hc
    cases hs
    exact h.event hc.1 hc.2 revent soError
  | completion err =>
    dsimp only at hs
    split_ifs at hs with hc
    cases hs
    have hinv := h.completion hc.2 err
    exact ⟨⟨fun _ => trivial, fun _ => hinv.oneOutcome⟩, fun _ => hinv⟩

/-- In every run of a connector, each attempt comes to one outcome, if and only if every call of the run
is sound. -/
theorem oneOutcome_iff_sound (platform : Platform) (ops : List Op) :
    Machine.Always step OneOutcome (initial platform) ops ↔
      Machine.Meets step Sound (initial platform) ops :=
  Machine.always_iff_meets (fun _ h => h.oneOutcome) (fun _ _ _ h _ hs => h.step hs)
    (connectInv_initial platform) (Machine.meets_of_labels fun _ _ => trivial)

/-- A refused connection: the poll reports `POLLOUT`, `POLLERR` and `POLLHUP`, and the hang-up calls the
`closeCallback` that the connector has not set. -/
theorem refused_calls_unset_callback :
    ¬ ∀ (platform : Platform) (ops : List Op),
      Machine.Always step OneOutcome (initial platform) ops := by
  intro h
  have hrun := h .unix [.start .accepted,
    .event (Revent.POLLOUT ||| Revent.POLLERR ||| Revent.POLLHUP) (some .connection_refused)]
  exact absurd (hrun.of_run rfl).fault (by decide)

/-- On Windows an attempt that times out is retried on the same channel, and succeeds. -/
example : Machine.Meets step Sound (initial .windows)
    [.start .accepted, .completion (some .WSAETIMEDOUT), .timer .accepted, .completion none] := by
  refine .cons rfl ⟨rfl, rfl⟩ <| .cons rfl trivial <| .cons rfl ⟨rfl, rfl⟩ <| .cons rfl trivial trivial

end Hulatang.Connector
