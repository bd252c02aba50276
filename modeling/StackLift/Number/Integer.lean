/-
# Integers in texts

Two ways to write an integer of 64 bits:

* `decimal` reads a plain decimal number with an optional sign;
* `literal?` reads a number in the base its beginning tells, with underscores between digits.

Arithmetic on 64-bit integers wraps around: `wrap` takes an integer to the one that it is equal
to modulo `2 ^ 64`.
-/

namespace StackLift.Number

/-! ## The 64-bit range -/

/-- The number `2 ^ 64` of the words of 64 bits. -/
abbrev wordCount : Nat := 18446744073709551616

/-- The 64-bit integer equal to `n` modulo `2 ^ 64`. -/
def wrap (n : Int) : Int := n.bmod wordCount

/-- Whether a number is an integer of 64 bits: not below `-2 ^ 63`, and below `2 ^ 63`. -/
def isInt64 (n : Int) : Bool := decide (-9223372036854775808 ≤ n ∧ n < 9223372036854775808)

/-- Wrapping leaves the 64-bit integers as they are. -/
theorem wrap_of_isInt64 {n : Int} (h : isInt64 n = true) : wrap n = n := by
  simp only [isInt64, decide_eq_true_eq] at h
  exact Int.bmod_eq_of_le (by simp only [wordCount]; omega) (by simp only [wordCount]; omega)

/-- Wrapping ends in the 64-bit range. -/
theorem isInt64_wrap (n : Int) : isInt64 (wrap n) = true := by
  have h₁ := @Int.le_bmod n wordCount (by decide)
  have h₂ := @Int.bmod_lt n wordCount (by decide)
  exact decide_eq_true ⟨h₁, h₂⟩

/-! ## Digits -/

/-- The value of a digit or of a letter of either case, letters going on from ten. -/
def digitValue? (c : Char) : Option Nat :=
  if '0' ≤ c ∧ c ≤ '9' then some (c.toNat - '0'.toNat)
  else if 'a' ≤ c ∧ c ≤ 'z' then some (c.toNat - 'a'.toNat + 10)
  else if 'A' ≤ c ∧ c ≤ 'Z' then some (c.toNat - 'A'.toNat + 10)
  else none

/-- The value of a digit of the given base. -/
def digitOf? (base : Nat) (c : Char) : Option Nat :=
  (digitValue? c).filter (· < base)

/-- The sign and the rest of a number that may start with one. -/
def splitSign : List Char → Bool × List Char
  | '+' :: cs => (false, cs)
  | '-' :: cs => (true, cs)
  | cs => (false, cs)

/-- A magnitude with its sign. -/
def withSign (negative : Bool) (n : Nat) : Int := if negative then -n else n

/-! ## Decimal integers -/

/-- Why a text is no decimal integer. -/
inductive DecimalError
  | syntaxError
  | outOfRange
  deriving DecidableEq, Repr

/-- How an error is worded. -/
def DecimalError.message : DecimalError → String
  | .syntaxError => "invalid syntax"
  | .outOfRange => "value out of range"

/-- The number that decimal digits spell after the value `n`.  A number of more than 64 bits is
noticed at the digit that makes it too large, so before a bad character further on. -/
def decimalAfter (n : Nat) : List Char → Except DecimalError Nat
  | [] => .ok n
  | c :: cs =>
    match digitOf? 10 c with
    | none => .error .syntaxError
    | some d => if 10 * n + d < wordCount then decimalAfter (10 * n + d) cs else .error .outOfRange

/-- The 64-bit integer that a text spells in decimal. -/
def decimal (cs : List Char) : Except DecimalError Int := do
  let (negative, ds) := splitSign cs
  if ds.isEmpty then .error .syntaxError
  else
    let n ← decimalAfter 0 ds
    let v := withSign negative n
    if isInt64 v then .ok v else .error .outOfRange

/-! ## Integer literals -/

/-- What stood before a character, as far as underscores care. -/
inductive Neighbour
  | start
  | digit
  | underscore
  | other
  deriving DecidableEq, Repr

/-- Whether every underscore after `before` has a digit on either side. -/
def underscoresOkAfter (isDigit : Char → Bool) : Neighbour → List Char → Bool
  | before, [] => before != .underscore
  | before, c :: cs =>
    if isDigit c then underscoresOkAfter isDigit .digit cs
    else if c = '_' then before == .digit && underscoresOkAfter isDigit .underscore cs
    else before != .underscore && underscoresOkAfter isDigit .other cs

/-- Whether the underscores of a number are well placed: between two digits, or after the letter
that tells the base, which counts as a digit. -/
def underscoresOk (cs : List Char) : Bool :=
  match (splitSign cs).2 with
  | '0' :: p :: ds =>
    if p = 'x' ∨ p = 'X' then underscoresOkAfter (fun c => (digitOf? 16 c).isSome) .digit ds
    else if p = 'b' ∨ p = 'B' ∨ p = 'o' ∨ p = 'O' then underscoresOkAfter Char.isDigit .digit ds
    else underscoresOkAfter Char.isDigit .start ('0' :: p :: ds)
  | ds => underscoresOkAfter Char.isDigit .start ds

/-- The base of an unsigned number and its digits: `0x`, `0b` and `0o` tell the base if a digit
follows, any other leading zero stands for octal. -/
def splitBase : List Char → Nat × List Char
  | '0' :: p :: d :: ds =>
    if p = 'b' ∨ p = 'B' then (2, d :: ds)
    else if p = 'o' ∨ p = 'O' then (8, d :: ds)
    else if p = 'x' ∨ p = 'X' then (16, d :: ds)
    else (8, p :: d :: ds)
  | '0' :: ds => (8, ds)
  | ds => (10, ds)

/-- The number that digits spell after the value `n`, underscores left out. -/
def digitsAfter? (base n : Nat) : List Char → Option Nat
  | [] => some n
  | c :: cs =>
    if c = '_' then digitsAfter? base n cs
    else do
      let d ← digitOf? base c
      digitsAfter? base (base * n + d) cs

/-- The 64-bit integer that a literal spells. -/
def literal? (cs : List Char) : Option Int := do
  let (negative, ds) := splitSign cs
  if ds.isEmpty ∨ !underscoresOk ds then none
  else
    let (base, ds) := splitBase ds
    let n ← digitsAfter? base 0 ds
    let v := withSign negative n
    if isInt64 v then some v else none

end StackLift.Number
