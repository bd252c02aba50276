/-
# Binary floating-point numbers

A format says how many bits hold the fraction and how many the exponent of a number.  Numbers of
a format are handled as the natural numbers their bits spell, without the sign, and every
computation on them is exact: `Format.unpack` gives the value `m · 2 ^ e`, `Format.round` goes
back from a ratio to the nearest number of the format, to the one with an even last bit if two
are equally near.
-/

namespace StackLift.Number

/-! ## Formats -/

/-- A binary format: the widths of its fraction and of its exponent. -/
structure Format where
  fractionBits : Nat
  exponentBits : Nat
  deriving DecidableEq, Repr

/-- The format of 16 bits. -/
def Format.half : Format := ⟨10, 5⟩

/-- The format of 32 bits. -/
def Format.single : Format := ⟨23, 8⟩

/-- The format of 64 bits. -/
def Format.double : Format := ⟨52, 11⟩

namespace Format

/-- The exponent of the last bit of the smallest numbers. -/
def leastExponent (f : Format) : Int := 2 - (Nat.pow 2 (f.exponentBits - 1) : Nat) - f.fractionBits

/-- The bits of infinity: all ones in the exponent and no fraction. -/
def infinity (f : Format) : Nat := (Nat.pow 2 f.exponentBits - 1) * Nat.pow 2 f.fractionBits

/-- The bit that holds the sign. -/
def signBit (f : Format) : Nat := Nat.pow 2 (f.exponentBits + f.fractionBits)

/-- A finite number without its sign, as `mantissa · 2 ^ exponent`. -/
structure Scaled where
  mantissa : Nat
  exponent : Int
  deriving DecidableEq, Repr

/-- The value of the bits of a finite number. -/
def unpack (f : Format) (bits : Nat) : Scaled :=
  let e := bits / Nat.pow 2 f.fractionBits
  let m := bits % Nat.pow 2 f.fractionBits
  if e = 0 then ⟨m, f.leastExponent⟩
  else ⟨m + Nat.pow 2 f.fractionBits, f.leastExponent + (e - 1)⟩

end Format

/-! ## Rounding a ratio -/

/-- The greatest `k` with `2 ^ k ≤ num / den`, both being positive. -/
def log2Ratio (num den : Nat) : Int :=
  let k : Int := num.log2 - den.log2
  let enough := if 0 ≤ k then den * Nat.pow 2 k.toNat ≤ num
    else den ≤ num * Nat.pow 2 (-k).toNat
  if enough then k else k - 1

/-- The integer nearest to `num / den`, the even one of two equally near. -/
def roundDiv (num den : Nat) : Nat :=
  let q := num / den
  let r := num % den
  if den < 2 * r ∨ (den = 2 * r ∧ q % 2 = 1) then q + 1 else q

/-- The bits of the number of a format that is nearest to `num / den`.  A ratio too large for the
format gives the bits of infinity or more. -/
def Format.round (f : Format) (num den : Nat) : Nat :=
  if num = 0 then 0
  else
    let e := max (log2Ratio num den - f.fractionBits) f.leastExponent
    let m := if 0 ≤ e then roundDiv num (den * Nat.pow 2 e.toNat)
      else roundDiv (num * Nat.pow 2 (-e).toNat) den
    (e - f.leastExponent).toNat * Nat.pow 2 f.fractionBits + m

/-- The bits of the number of a format nearest to `m · 2 ^ e`. -/
def Format.roundScaled (f : Format) (s : Format.Scaled) : Nat :=
  if 0 ≤ s.exponent then f.round (s.mantissa * Nat.pow 2 s.exponent.toNat) 1
  else f.round s.mantissa (Nat.pow 2 (-s.exponent).toNat)

/-! ## Numbers of 64 bits -/

/-- A floating-point number of 64 bits, by its bits. -/
structure Binary64 where
  bits : UInt64
  deriving DecidableEq, Repr

namespace Binary64

/-- Whether the sign is set. -/
def isNegative (x : Binary64) : Bool := Format.double.signBit ≤ x.bits.toNat

/-- The bits without the sign. -/
def magnitude (x : Binary64) : Nat := x.bits.toNat % Format.double.signBit

/-- Whether a number is infinite. -/
def isInfinite (x : Binary64) : Bool := x.magnitude = Format.double.infinity

/-- Whether the bits stand for no number. -/
def isNaN (x : Binary64) : Bool := Format.double.infinity < x.magnitude

/-- The number with a sign and the given other bits. -/
def ofMagnitude (negative : Bool) (magnitude : Nat) : Binary64 :=
  ⟨(if negative then Format.double.signBit + magnitude else magnitude).toUInt64⟩

/-- Infinity with a sign. -/
def infinite (negative : Bool) : Binary64 := ofMagnitude negative Format.double.infinity

/-- The quiet value that stands for no number. -/
def nan : Binary64 := ⟨0x7FF8000000000001⟩

/-- The finite number nearest to a signed ratio, when there is one. -/
def ofRatio? (negative : Bool) (num den : Nat) : Option Binary64 :=
  let bits := Format.double.round num den
  if bits < Format.double.infinity then some (ofMagnitude negative bits) else none

end Binary64

end StackLift.Number
