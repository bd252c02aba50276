/-
# Floating-point literals

A literal is decimal (`1_000.5e-3`) or hexadecimal (`0x1.8p4`, where the exponent is of two and
may not be left out), or names an infinity or the value that is no number.  Its value is the
nearest number of 64 bits; a literal beyond the largest number has none.
-/
import StackLift.Number.Binary
import StackLift.Number.Integer

namespace StackLift.Number.FloatLiteral

/-! ## Parts of a literal -/

/-- The digits read so far: their value, how many stand after the point, whether a point and
whether a digit was seen. -/
structure Mantissa where
  value : Nat
  places : Nat
  hasPoint : Bool
  hasDigits : Bool
  deriving DecidableEq, Repr

/-- No digits. -/
def Mantissa.empty : Mantissa := ⟨0, 0, false, false⟩

/-- The mantissa after one more digit. -/
def Mantissa.push (m : Mantissa) (base d : Nat) : Mantissa :=
  ⟨base * m.value + d, if m.hasPoint then m.places + 1 else m.places, m.hasPoint, true⟩

/-- Reads digits, underscores and one point, and returns what follows them. -/
def readMantissa (base : Nat) (m : Mantissa) : List Char → Mantissa × List Char
  | [] => (m, [])
  | c :: cs =>
    if c = '_' then readMantissa base m cs
    else if c = '.' ∧ !m.hasPoint then readMantissa base { m with hasPoint := true } cs
    else
      match digitOf? base c with
      | some d => readMantissa base (m.push base d) cs
      | none => (m, c :: cs)

/-- The magnitude of an exponent, underscores left out.  Digits beyond the fifth no longer change
what a literal is worth and are not counted. -/
def exponentAfter? (n : Nat) : List Char → Option Nat
  | [] => some n
  | c :: cs =>
    if c = '_' then exponentAfter? n cs
    else do
      let d ← digitOf? 10 c
      exponentAfter? (if n < 10000 then 10 * n + d else n) cs

/-- The exponent after its mark, which starts with a digit. -/
def exponent? (cs : List Char) : Option Int := do
  let (negative, ds) := splitSign cs
  match ds with
  | d :: _ => if d.isDigit then (exponentAfter? 0 ds).map (withSign negative) else none
  | [] => none

/-- The exponent that ends a literal, zero if the end is empty and the exponent may be left out. -/
def suffixExponent? (mark : Char) (optional : Bool) : List Char → Option Int
  | [] => if optional then some 0 else none
  | c :: cs => if c.toLower = mark then exponent? cs else none

/-! ## Values -/

/-- The number nearest to `value · 10 ^ exponent`.  Exponents far outside the range are settled
by the count of digits. -/
def ofDecimal? (negative : Bool) (value : Nat) (exponent : Int) : Option Binary64 :=
  let size := (Nat.toDigits 10 value).length + exponent
  if value = 0 ∨ size < -400 then some (Binary64.ofMagnitude negative 0)
  else if 400 < size then none
  else if 0 ≤ exponent then Binary64.ofRatio? negative (value * Nat.pow 10 exponent.toNat) 1
  else Binary64.ofRatio? negative value (Nat.pow 10 (-exponent).toNat)

/-- The number nearest to `value · 2 ^ exponent`. -/
def ofBinary? (negative : Bool) (value : Nat) (exponent : Int) : Option Binary64 :=
  let size := value.log2 + exponent
  if value = 0 ∨ size < -1200 then some (Binary64.ofMagnitude negative 0)
  else if 1200 < size then none
  else if 0 ≤ exponent then Binary64.ofRatio? negative (value * Nat.pow 2 exponent.toNat) 1
  else Binary64.ofRatio? negative value (Nat.pow 2 (-exponent).toNat)

/-- Infinities with or without a sign, and the value that is no number, in letters of any case. -/
def special? (cs : List Char) : Option Binary64 :=
  let lower := cs.map Char.toLower
  let (negative, name) := splitSign lower
  if name = "inf".toList ∨ name = "infinity".toList then some (Binary64.infinite negative)
  else if lower = "nan".toList then some Binary64.nan
  else none

/-- The number that a decimal or hexadecimal literal spells. -/
def numeric? (cs : List Char) : Option Binary64 := do
  let (negative, body) := splitSign cs
  if !underscoresOk cs then none
  else
    match body with
    | '0' :: x :: d :: ds =>
      if x = 'x' ∨ x = 'X' then
        let (m, rest) := readMantissa 16 .empty (d :: ds)
        let e ← suffixExponent? 'p' false rest
        if m.hasDigits then ofBinary? negative m.value (e - 4 * m.places) else none
      else decimal? negative body
    | _ => decimal? negative body
where
  decimal? (negative : Bool) (body : List Char) : Option Binary64 := do
    let (m, rest) := readMantissa 10 .empty body
    let e ← suffixExponent? 'e' true rest
    if m.hasDigits then ofDecimal? negative m.value (e - m.places) else none

end FloatLiteral

/-- The number of 64 bits that a floating-point literal spells. -/
def floatLiteral? (cs : List Char) : Option Binary64 :=
  match FloatLiteral.special? cs with
  | some x => some x
  | none => FloatLiteral.numeric? cs

end StackLift.Number
