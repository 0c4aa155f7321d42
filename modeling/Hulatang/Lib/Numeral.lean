import Mathlib.Algebra.Group.Nat.Defs
import Mathlib.Algebra.Ring.Int.Defs
import Mathlib.Tactic.SplitIfs

/-!
# Numbers in a text

The numbers that C reads from a text of bytes: white space, a sign, in base 16 a `0x`, and the digits that
follow, as many as there are. `stoul` and `stoi` are the conversions of the C++ library, to an
`unsigned long` of 64 bits and an `int` of 32. A `numeral` is a text of nothing but digits, which both of
them read.
-/

namespace Hulatang

/-- How a conversion fails. -/
inductive NumberError
  /-- `std::invalid_argument`: there is no digit. -/
  | invalidArgument
  /-- `std::out_of_range`. -/
  | outOfRange
  deriving DecidableEq

/-- `isspace`. -/
def isSpace (c : UInt8) : Bool := c.toNat = 32 ∨ 9 ≤ c.toNat ∧ c.toNat ≤ 13

/-- The value of a digit, if it is one. -/
def digitValue (base : ℕ) (c : UInt8) : Option ℕ :=
  let value :=
    if 48 ≤ c.toNat ∧ c.toNat ≤ 57 then c.toNat - 48
    else if 97 ≤ c.toNat ∧ c.toNat ≤ 122 then c.toNat - 87
    else if 65 ≤ c.toNat ∧ c.toNat ≤ 90 then c.toNat - 55
    else base
  if value < base then some value else none

/-- The digits that a text begins with. -/
def digits (base : ℕ) : List UInt8 → List ℕ
  | [] => []
  | c :: text =>
    match digitValue base c with
    | some d => d :: digits base text
    | none => []

/-- The number that has the digits, the most significant one first. -/
def ofDigits (base : ℕ) (ds : List ℕ) : ℕ := ds.foldl (fun n d => n * base + d) 0

/-- Whether a text begins with a minus sign, and what follows the sign. -/
def takeSign : List UInt8 → Bool × List UInt8
  | [] => (false, [])
  | c :: text => if c = 45 then (true, text) else if c = 43 then (false, text) else (false, c :: text)

/-- A `0x` in base 16 is passed over where a digit follows. -/
def dropHexMark (base : ℕ) : List UInt8 → List UInt8
  | c :: x :: d :: text =>
    if base = 16 ∧ c = 48 ∧ (x = 120 ∨ x = 88) ∧ (digitValue 16 d).isSome then d :: text
    else c :: x :: d :: text
  | text => text

/-- The sign and the magnitude of the number that a text begins with. -/
def scanNumber (base : ℕ) (text : List UInt8) : Option (Bool × ℕ) :=
  let signed := takeSign (text.dropWhile isSpace)
  match digits base (dropHexMark base signed.2) with
  | [] => none
  | ds => some (signed.1, ofDigits base ds)

/-- `std::stoul`, for which `-n` is `n` negated. -/
def stoul (base : ℕ) (text : List UInt8) : Except NumberError ℕ :=
  match scanNumber base text with
  | none => .error .invalidArgument
  | some (negative, n) =>
    if 2^64 ≤ n then .error .outOfRange else .ok (if negative then (2^64 - n) % 2^64 else n)

/-- `std::stoi`. -/
def stoi (text : List UInt8) : Except NumberError ℤ :=
  match scanNumber 10 text with
  | none => .error .invalidArgument
  | some (negative, n) =>
    let value : ℤ := if negative then -n else n
    if -2^31 ≤ value ∧ value < 2^31 then .ok value else .error .outOfRange

/-- The number that a text of digits is. -/
def numeral (base : ℕ) (text : List UInt8) : Option ℕ :=
  if text ≠ [] ∧ text.all fun c => (digitValue base c).isSome then some (ofDigits base (digits base text))
  else none

/-! ## Digits -/

variable {base n : ℕ} {c : UInt8} {text : List UInt8}

/-- Neither white space nor a sign is a digit. -/
theorem le_of_isSome_digitValue (h : (digitValue base c).isSome) : 48 ≤ c.toNat := by
  by_contra hlt
  have hnone : digitValue base c = none := by
    have hdigit : ¬ (48 ≤ c.toNat ∧ c.toNat ≤ 57) := by omega
    have hlower : ¬ (97 ≤ c.toNat ∧ c.toNat ≤ 122) := by omega
    have hupper : ¬ (65 ≤ c.toNat ∧ c.toNat ≤ 90) := by omega
    unfold digitValue
    rw [if_neg hdigit, if_neg hlower, if_neg hupper]
    exact if_neg (Nat.lt_irrefl _)
  rw [hnone] at h
  cases h

theorem digitValue_lt {d : ℕ} (h : digitValue base c = some d) : d < base := by
  unfold digitValue at h
  dsimp only at h
  split_ifs at h <;> (cases h; assumption)

theorem digits_lt {d : ℕ} (h : d ∈ digits base text) : d < base := by
  induction text with
  | nil => cases h
  | cons c text ih =>
    unfold digits at h
    split at h
    · rename_i d' hd'
      rcases List.mem_cons.mp h with rfl | hmem
      · exact digitValue_lt hd'
      · exact ih hmem
    · cases h

/-- A text of digits has one digit for each byte. -/
theorem length_digits (h : ∀ c ∈ text, (digitValue base c).isSome) :
    (digits base text).length = text.length := by
  induction text with
  | nil => rfl
  | cons c text ih =>
    obtain ⟨hc, htext⟩ := List.forall_mem_cons.mp h
    obtain ⟨d, hd⟩ := Option.isSome_iff_exists.mp hc
    rw [digits, hd]
    exact congrArg (· + 1) (ih htext)

theorem foldl_digits_lt {ds : List ℕ} (h : ∀ d ∈ ds, d < base) (acc : ℕ) :
    ds.foldl (fun n d => n * base + d) acc < (acc + 1) * base ^ ds.length := by
  induction ds generalizing acc with
  | nil => simp
  | cons d ds ih =>
    obtain ⟨hd, hds⟩ := List.forall_mem_cons.mp h
    have hnext : acc * base + d + 1 ≤ (acc + 1) * base := by
      rw [Nat.add_mul, Nat.one_mul]
      omega
    calc ds.foldl (fun n d => n * base + d) (acc * base + d)
        < (acc * base + d + 1) * base ^ ds.length := ih hds _
      _ ≤ (acc + 1) * base * base ^ ds.length := Nat.mul_le_mul_right _ hnext
      _ = (acc + 1) * base ^ (ds.length + 1) := by rw [Nat.mul_assoc, Nat.pow_succ']

/-! ## Texts of digits -/

theorem numeral_eq_some_iff : numeral base text = some n ↔
    (text ≠ [] ∧ ∀ c ∈ text, (digitValue base c).isSome) ∧ ofDigits base (digits base text) = n := by
  unfold numeral
  rw [← List.all_eq_true]
  split_ifs with h
  · exact ⟨fun hn => ⟨h, Option.some.inj hn⟩, fun hn => congrArg some hn.2⟩
  · exact ⟨fun hn => (nomatch hn), fun hn => absurd hn.1 h⟩

/-- A number is as long as its text. -/
theorem numeral_lt (h : numeral base text = some n) : n < base ^ text.length := by
  obtain ⟨⟨-, hdigits⟩, rfl⟩ := numeral_eq_some_iff.mp h
  have hlt := foldl_digits_lt (fun d (hd : d ∈ digits base text) => digits_lt hd) 0
  rw [length_digits hdigits, Nat.zero_add, Nat.one_mul] at hlt
  exact hlt

theorem not_mem_of_numeral (h : numeral base text = some n) (hc : digitValue base c = none) :
    c ∉ text := by
  intro hmem
  have hsome := (numeral_eq_some_iff.mp h).1.2 c hmem
  rw [hc] at hsome
  cases hsome

/-- A text of digits is read as a whole. -/
theorem scanNumber_of_numeral (h : numeral base text = some n) : scanNumber base text = some (false, n) := by
  obtain ⟨⟨hne, hdigits⟩, hn⟩ := numeral_eq_some_iff.mp h
  obtain ⟨c, rest, rfl⟩ := List.exists_cons_of_ne_nil hne
  have hc := le_of_isSome_digitValue (hdigits c List.mem_cons_self)
  have hspace : (c :: rest).dropWhile isSpace = c :: rest := by
    refine List.dropWhile_cons_of_neg ?_
    simp only [isSpace, decide_eq_true_eq]
    omega
  have hsign : takeSign (c :: rest) = (false, c :: rest) := by
    have hminus : c ≠ 45 := fun heq => by rw [heq] at hc; exact absurd hc (by decide)
    have hplus : c ≠ 43 := fun heq => by rw [heq] at hc; exact absurd hc (by decide)
    rw [takeSign, if_neg hminus, if_neg hplus]
  -- An `x` is no digit in base 16.
  have hmark : dropHexMark base (c :: rest) = c :: rest := by
    unfold dropHexMark
    split
    · rename_i c' x d text heq
      refine (if_neg ?_).trans heq.symm
      rintro ⟨rfl, -, hx, -⟩
      have hmem : x ∈ c :: rest := by
        rw [heq]
        exact List.mem_cons_of_mem _ List.mem_cons_self
      have hdigit := hdigits x hmem
      rcases hx with rfl | rfl <;> exact absurd hdigit (by decide)
    · rfl
  unfold scanNumber
  rw [hspace, hsign]
  dsimp only
  rw [hmark]
  split
  · rename_i hnil
    have hlength := length_digits hdigits
    rw [hnil] at hlength
    cases hlength
  · rw [hn]

theorem stoul_of_numeral (h : numeral base text = some n) (hn : n < 2^64) : stoul base text = .ok n := by
  unfold stoul
  rw [scanNumber_of_numeral h]
  exact if_neg (Nat.not_le.mpr hn)

theorem stoul_lt (h : stoul base text = .ok n) : n < 2^64 := by
  unfold stoul at h
  split at h
  · cases h
  · rename_i negative m hscan
    split_ifs at h with hbig hnegative
    · cases h
      exact Nat.mod_lt _ (by decide)
    · cases h
      exact Nat.lt_of_not_le hbig

theorem stoi_of_numeral (h : numeral 10 text = some n) (hn : n < 2^31) : stoi text = .ok n := by
  unfold stoi
  rw [scanNumber_of_numeral h]
  refine if_pos ?_
  show -2^31 ≤ (n : ℤ) ∧ (n : ℤ) < 2^31
  omega

end Hulatang
