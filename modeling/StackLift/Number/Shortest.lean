/-
# Shortest decimals

A finite number is written with the fewest decimal digits that read back as the same number; of
several decimals with that many digits the nearest is taken, and of two equally near ones the one
with an even last digit.

* `shortest` finds the digits;
* `Layout.render` writes digits and exponent, as a `Layout` tells.
-/
import StackLift.Number.Binary

namespace StackLift.Number

/-! ## The digits -/

/-- A positive number and the ends of the interval of reals that round to it, all three as
multiples of `2 ^ exponent`. -/
structure Interval where
  low : Nat
  value : Nat
  high : Nat
  exponent : Int
  /-- Whether the two ends round to the number too. -/
  closed : Bool
  deriving Repr

/-- The interval of a number of 64 bits: halfway to its two neighbours, of which the lower one is
nearer below a power of two. -/
def Interval.ofScaled (s : Format.Scaled) : Interval :=
  let narrow := s.mantissa = Nat.pow 2 Format.double.fractionBits ∧
    Format.double.leastExponent < s.exponent
  ⟨4 * s.mantissa - (if narrow then 1 else 2), 4 * s.mantissa, 4 * s.mantissa + 2,
    s.exponent - 2, s.mantissa % 2 = 0⟩

/-- A decimal `digits · 10 ^ exponent`. -/
structure Decimal where
  digits : Nat
  exponent : Int
  deriving DecidableEq, Repr

/-- A power with an exponent of either sign, as a fraction. -/
def powRatio (base : Nat) (e : Int) : Nat × Nat :=
  if 0 ≤ e then (Nat.pow base e.toNat, 1) else (1, Nat.pow base (-e).toNat)

/-- The multiple of `10 ^ p` in the interval that is nearest to its value, when there is one. -/
def Interval.onGrid? (i : Interval) (p : Int) : Option Decimal :=
  let (a, b) := powRatio 2 i.exponent
  let (c, d) := powRatio 10 p
  let unit := a * d
  let step := c * b
  let inside (n : Nat) : Bool :=
    if i.closed then i.low * unit ≤ n * step && n * step ≤ i.high * unit
    else i.low * unit < n * step && n * step < i.high * unit
  let v := i.value * unit
  let n := v / step
  let r := v % step
  let upper := step < 2 * r ∨ (step = 2 * r ∧ n % 2 = 1)
  let first := if upper then n + 1 else n
  let second := if upper then n else n + 1
  if inside first then some ⟨first, p⟩
  else if inside second then some ⟨second, p⟩
  else none

/-- The exponent of the first decimal digit of the value of an interval. -/
def Interval.leadingExponent (i : Interval) : Int :=
  let (a, b) := powRatio 2 i.exponent
  (Nat.toDigits 10 (i.value * a * Nat.pow 10 340 / b)).length - 341

/-- Seventeen digits always tell a number of 64 bits from its neighbours. -/
def mostDigits : Nat := 17

/-- The decimal with the fewest digits in the interval, the nearest of them to the value. -/
def Interval.shortest (i : Interval) : Decimal :=
  let lead := i.leadingExponent
  match (List.range mostDigits).findSome? fun (n : Nat) => i.onGrid? (lead - n) with
  | some d => d
  | none => ⟨0, 0⟩

/-! ## The layout -/

/-- How digits and exponent are written. -/
structure Layout where
  /-- The least exponent of a number written without an exponent. -/
  plainFrom : Int
  /-- The first exponent above of a number written with one. -/
  plainBelow : Int
  /-- The least count of digits of a written exponent. -/
  exponentDigits : Nat
  deriving Repr

/-- The digits of a decimal without trailing zeros, and the exponent of the first of them. -/
def Decimal.normalize (d : Decimal) : List Char × Int :=
  let ds := Nat.toDigits 10 d.digits
  ((ds.reverse.dropWhile (· = '0')).reverse, d.exponent + (ds.length - 1))

/-- An exponent with its sign, filled up with zeros. -/
def Layout.exponentText (l : Layout) (e : Int) : List Char :=
  let ds := Nat.toDigits 10 e.natAbs
  (if e < 0 then '-' else '+') :: (List.replicate (l.exponentDigits - ds.length) '0' ++ ds)

/-- A positive decimal with the point in its place, or after the first digit and an exponent. -/
def Layout.render (l : Layout) (d : Decimal) : List Char :=
  let (ds, x) := d.normalize
  if l.plainFrom ≤ x ∧ x < l.plainBelow then
    if x < 0 then '0' :: '.' :: (List.replicate (-x - 1).toNat '0' ++ ds)
    else
      let n := x.toNat + 1
      let whole := ds.take n ++ List.replicate (n - ds.length) '0'
      if ds.length ≤ n then whole else whole ++ '.' :: ds.drop n
  else
    let fraction := if ds.length ≤ 1 then [] else '.' :: ds.drop 1
    ds.take 1 ++ fraction ++ 'e' :: l.exponentText x

/-- A number of 64 bits, by a layout for the finite ones. -/
def Layout.text (l : Layout) (x : Binary64) : String :=
  let sign := if x.isNegative then "-" else ""
  if x.isNaN then "NaN"
  else if x.isInfinite then if x.isNegative then "-Inf" else "+Inf"
  else if x.magnitude = 0 then sign ++ "0"
  else
    let s := Format.double.unpack x.magnitude
    sign ++ String.ofList (l.render (Interval.ofScaled s).shortest)

end StackLift.Number
