import Mathlib.Data.Nat.Notation

/-!
# Computations that may fail

A computation in `Except` that goes on with what another one returns: it goes on where that returns
(`bind_of_eq_ok`), fails where that fails (`bind_of_eq_error`), and has returned only if both parts have
(`bind_eq_ok`).
-/

namespace Hulatang

variable {ε α β : Type} {x : Except ε α} {f : α → Except ε β}

theorem bind_of_eq_ok {a : α} (h : x = .ok a) (f : α → Except ε β) : (x >>= f) = f a := by
  rw [h]
  rfl

theorem bind_of_eq_error {e : ε} (h : x = .error e) (f : α → Except ε β) : (x >>= f) = .error e := by
  rw [h]
  rfl

/-- What has returned has gone through both parts. -/
theorem bind_eq_ok {b : β} (h : (x >>= f) = .ok b) : ∃ a, x = .ok a ∧ f a = .ok b := by
  cases x with
  | error e => cases h
  | ok a => exact ⟨a, rfl, h⟩

theorem ok_of_toOption {a : α} (h : x.toOption = some a) : x = .ok a := by
  cases x with
  | error e => cases h
  | ok b => exact congrArg _ (Option.some.inj h)

end Hulatang
