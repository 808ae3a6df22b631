/-! Integers in decimal.

A numeral is an optional minus sign before one or more of the digits `0` to `9`.
`Decimal.value` is the integer it denotes, however long it is, and
`Decimal.int64?` that integer when it fits 64 bits with a sign. Many numerals
denote one integer (`7`, `007`); `Decimal.chars` is the one without superfluous
zeros, and reading it gives the integer back (`value_chars`, `int64?_chars`). -/
namespace ConstraintNet.Text.Decimal

/-- A minus sign, if there is one, and at least one digit. -/
def IsNumeral (cs : List Char) : Prop :=
  ∃ ds, ds ≠ [] ∧ (∀ d ∈ ds, d.isDigit = true) ∧ (cs = ds ∨ cs = '-' :: ds)

/-- The number that a row of digits denotes. -/
def magnitude (ds : List Char) : Nat :=
  Nat.ofDigitChars 10 ds 0

/-- The integer that a numeral denotes. -/
def value : List Char → Int
  | '-' :: ds => -(magnitude ds : Int)
  | ds => (magnitude ds : Int)

/-- The integer that a numeral denotes, unless 64 bits are too few for it. -/
def int64? (cs : List Char) : Option Int64 :=
  if h : Int64.minValue.toInt ≤ value cs ∧ value cs ≤ Int64.maxValue.toInt then
    some (Int64.ofIntLE (value cs) h.1 h.2)
  else none

/-- The shortest numeral of an integer. -/
def chars : Int → List Char
  | .ofNat n => Nat.toDigits 10 n
  | .negSucc n => '-' :: Nat.toDigits 10 (n + 1)

/-- The shortest numeral of an integer, as a string. -/
def text (i : Int) : String :=
  String.ofList (chars i)

/-! ### Reading what was written -/

/-- The digits of a number are a numeral's. -/
theorem isDigit_toDigits (n : Nat) : ∀ d ∈ Nat.toDigits 10 n, d.isDigit = true :=
  fun _ h => Nat.isDigit_of_mem_toDigits (by decide) (by decide) h

theorem isNumeral_chars (i : Int) : IsNumeral (chars i) := by
  cases i with
  | ofNat n => exact ⟨_, Nat.toDigits_ne_nil, isDigit_toDigits n, .inl rfl⟩
  | negSucc n => exact ⟨_, Nat.toDigits_ne_nil, isDigit_toDigits (n + 1), .inr rfl⟩

theorem magnitude_toDigits (n : Nat) : magnitude (Nat.toDigits 10 n) = n :=
  Nat.ofDigitChars_toDigits (by decide) (by decide)

/-- A row of digits has no sign to take off. -/
theorem value_of_isDigit {ds : List Char} (h : ∀ d ∈ ds, d.isDigit = true) :
    value ds = magnitude ds := by
  unfold value
  split
  · exact absurd (h '-' (List.mem_cons_self ..)) (by decide)
  · rfl

theorem value_chars (i : Int) : value (chars i) = i := by
  cases i with
  | ofNat n =>
    rw [chars, value_of_isDigit (isDigit_toDigits n), magnitude_toDigits]
    rfl
  | negSucc n =>
    rw [chars, value, magnitude_toDigits]
    rfl

theorem int64?_eq_some_iff {cs : List Char} {v : Int64} : int64? cs = some v ↔ value cs = v.toInt := by
  unfold int64?
  constructor
  · intro h
    split at h
    · obtain rfl := Option.some.inj h
      exact Int64.toInt_ofIntLE.symm
    · cases h
  · intro h
    rw [dif_pos ⟨h ▸ v.minValue_le_toInt, h ▸ v.toInt_le⟩]
    refine congrArg some (Int64.toInt_inj.mp ?_)
    rw [Int64.toInt_ofIntLE, h]

theorem int64?_chars (v : Int64) : int64? (chars v.toInt) = some v :=
  int64?_eq_some_iff.mpr (value_chars _)

end ConstraintNet.Text.Decimal
