/-
# Numbers of documents

An integer is decimal without leading zeros, or has a base and no sign: `0x1f`, `0o17`, `0b11`.  A
floating-point number is decimal and has a point, an exponent or both.  Underscores may stand
between digits.
-/
import StackLift.Number.FloatLiteral
import StackLift.Toml.Time

namespace StackLift.Toml.Numeral

/-! ## Digits -/

/-- Whether every underscore has a digit before it, and the last character is a digit. -/
def isWellSpacedAfter (digitBefore : Bool) : List Char → Bool
  | [] => digitBefore
  | c :: cs => (c ≠ '_' || digitBefore) && isWellSpacedAfter (Text.hexValue? c).isSome cs

/-- Reads digits with underscores between them. -/
def readDigits (isDigit : Char → Bool) : Reader (List Char) := fun cs =>
  let ds := cs.takeWhile fun c => isDigit c || c == '_'
  if isWellSpacedAfter false ds then some (ds, cs.drop ds.length) else none

/-- Whether digits start with a zero that they could do without. -/
def hasLeadingZero : List Char → Bool
  | '0' :: _ :: _ => true
  | _ => false

/-- The base that a letter after a zero tells. -/
def baseOf? : Char → Option Nat
  | 'b' => some 2
  | 'o' => some 8
  | 'x' => some 16
  | _ => none

/-! ## Integers -/

/-- An integer in the 64-bit range. -/
def integer? (cs : List Char) : Option Written := (Number.literal? cs).map .integer

/-- Reads the digits of an integer after its base. -/
def readBased (letter : Char) (base : Nat) : Reader Written := fun cs => do
  let (ds, cs) ← readDigits (fun c => (Number.digitOf? base c).isSome) cs
  let n ← integer? ('0' :: letter :: ds)
  some (n, cs)

/-! ## Floating-point numbers -/

/-- Reads the digits after the point, if there is one. -/
def readFraction : Reader (List Char)
  | '.' :: cs => (readDigits Char.isDigit cs).map fun (ds, cs) => ('.' :: ds, cs)
  | cs => some ([], cs)

/-- Reads a sign, if there is one. -/
def readSign : List Char → List Char × List Char
  | '+' :: cs => (['+'], cs)
  | '-' :: cs => (['-'], cs)
  | cs => ([], cs)

/-- Reads an exponent, if there is one. -/
def readExponent : Reader (List Char)
  | c :: cs =>
    if c = 'e' ∨ c = 'E' then
      let (sign, cs) := readSign cs
      (readDigits Char.isDigit cs).map fun (ds, cs) => ('e' :: sign ++ ds, cs)
    else some ([], c :: cs)
  | [] => some ([], [])

/-- A floating-point number in the range of 64 bits. -/
def float? (cs : List Char) : Option Written :=
  (Number.floatLiteral? (cs.filter (· ≠ '_'))).map .float

/-! ## Numbers -/

/-- Reads a decimal number after its sign. -/
def readDecimal (sign : List Char) : Reader Written := fun cs => do
  let (whole, cs) ← readDigits Char.isDigit cs
  if hasLeadingZero whole then none
  else
    let (fraction, cs) ← readFraction cs
    let (exponent, cs) ← readExponent cs
    let n ← if fraction.isEmpty ∧ exponent.isEmpty then integer? (sign ++ whole)
      else float? (sign ++ whole ++ fraction ++ exponent)
    some (n, cs)

/-- Reads a number after its sign; infinity and the value that is no number have names. -/
def readSigned (sign : List Char) : Reader Written
  | 'i' :: 'n' :: 'f' :: cs => some (.float (.infinite (sign == ['-'])), cs)
  | 'n' :: 'a' :: 'n' :: cs => some (.float .nan, cs)
  | cs => readDecimal sign cs

/-- Whether digits at the start are those of a date or a time. -/
def startsTime (cs : List Char) : Bool :=
  match cs.dropWhile Char.isDigit with
  | c :: _ => (cs.head?.any Char.isDigit) && (c == '-' || c == ':')
  | [] => false

/-- Reads a number, a date or a time. -/
def read : Reader Written := fun cs =>
  if startsTime cs then Time.read cs
  else
    match cs with
    | '0' :: c :: rest =>
      match baseOf? c with
      | some base => readBased c base rest
      | none => readDecimal [] cs
    | _ =>
      let (sign, rest) := readSign cs
      readSigned sign rest

end StackLift.Toml.Numeral
