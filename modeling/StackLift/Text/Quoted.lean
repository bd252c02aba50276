/-
# Quoted texts

A quoted text stands between double quotes.  `quote` writes any bytes this way: printable
characters as they are, the others and stray bytes as escapes.  `unquote?` reads a quoted text
back, and knows octal escapes besides.
-/
import StackLift.Text.Basic
import StackLift.Text.Printable

namespace StackLift.Text

/-! ## Hexadecimal digits -/

/-- The digit of a value below 16, in lower case. -/
def hexDigit (n : Nat) : Char := Nat.digitChar n

/-- The last `width` hexadecimal digits of a number. -/
def hexDigits : Nat → Nat → List Char
  | 0, _ => []
  | width + 1, n => hexDigits width (n / 16) ++ [hexDigit (n % 16)]

/-- The value of a hexadecimal digit of either case. -/
def hexValue? (c : Char) : Option Nat :=
  if '0' ≤ c ∧ c ≤ '9' then some (c.toNat - '0'.toNat)
  else if 'a' ≤ c ∧ c ≤ 'f' then some (c.toNat - 'a'.toNat + 10)
  else if 'A' ≤ c ∧ c ≤ 'F' then some (c.toNat - 'A'.toNat + 10)
  else none

/-- The number that a sequence of hexadecimal digits spells. -/
def hexNumber? (ds : List Char) : Option Nat :=
  ds.foldlM (fun n d => (hexValue? d).map (16 * n + ·)) 0

/-! ## Writing -/

/-- The letter that names a control character in an escape. -/
def controlLetter? (c : Char) : Option Char :=
  match c.toNat with
  | 0x07 => some 'a'
  | 0x08 => some 'b'
  | 0x0C => some 'f'
  | 0x0A => some 'n'
  | 0x0D => some 'r'
  | 0x09 => some 't'
  | 0x0B => some 'v'
  | _ => none

/-- A character inside quotes: with a backslash if it is a quote or a backslash, as it is if it
is printable, by its letter if it has one, and else by its number. -/
def quoteChar (c : Char) : List Char :=
  if c = '"' ∨ c = '\\' then ['\\', c]
  else if isPrintable c then [c]
  else
    match controlLetter? c with
    | some l => ['\\', l]
    | none =>
      if c.toNat < 0x80 then '\\' :: 'x' :: hexDigits 2 c.toNat
      else if c.toNat < 0x10000 then '\\' :: 'u' :: hexDigits 4 c.toNat
      else '\\' :: 'U' :: hexDigits 8 c.toNat

/-- A piece of a text inside quotes. -/
def quotePiece : Piece → List Char
  | .char c => quoteChar c
  | .stray b => '\\' :: 'x' :: hexDigits 2 b.toNat

/-- A text between double quotes. -/
def quote (t : Text) : String :=
  String.ofList ('"' :: (pieces t).flatMap quotePiece ++ ['"'])

/-- A string between double quotes. -/
def quoteString (s : String) : String :=
  String.ofList ('"' :: s.toList.flatMap quoteChar ++ ['"'])

/-! ## Reading -/

/-- The value of an octal digit. -/
def octalValue? (c : Char) : Option Nat :=
  if '0' ≤ c ∧ c ≤ '7' then some (c.toNat - '0'.toNat) else none

/-- The byte or character that `width` hexadecimal digits spell, read with `value?`. -/
def hexEscape? (width : Nat) (value? : Nat → Option Text) (cs : List Char) :
    Option (Text × Nat) := do
  if cs.length < width then none
  else
    let n ← hexNumber? (cs.take width)
    let t ← value? n
    some (t, width + 1)

/-- What an escape stands for, and how many characters it takes.  The argument starts after the
backslash. -/
def escape? : List Char → Option (Text × Nat)
  | [] => none
  | c :: cs =>
    match c with
    | 'a' => some ([0x07], 1)
    | 'b' => some ([0x08], 1)
    | 'f' => some ([0x0C], 1)
    | 'n' => some ([0x0A], 1)
    | 'r' => some ([0x0D], 1)
    | 't' => some ([0x09], 1)
    | 'v' => some ([0x0B], 1)
    | '\\' => some ([0x5C], 1)
    | '"' => some ([0x22], 1)
    | 'x' => hexEscape? 2 (fun n => some [n.toUInt8]) cs
    | 'u' => hexEscape? 4 (fun n => (scalar? 0 n).map String.utf8EncodeChar) cs
    | 'U' => hexEscape? 8 (fun n => (scalar? 0 n).map String.utf8EncodeChar) cs
    | _ => do
      let d₀ ← octalValue? c
      match cs with
      | c₁ :: c₂ :: _ =>
        let d₁ ← octalValue? c₁
        let d₂ ← octalValue? c₂
        let n := (d₀ * 8 + d₁) * 8 + d₂
        if n < 256 then some ([n.toUInt8], 3) else none
      | _ => none

/-- The text before a closing quote that ends the sequence, the first `skip` characters left out.
A line feed has to be escaped. -/
def unquoteAfter : (skip : Nat) → List Char → Option Text
  | _, [] => none
  | skip + 1, _ :: cs => unquoteAfter skip cs
  | 0, c :: cs =>
    if c = '"' then if cs.isEmpty then some [] else none
    else if c = '\n' then none
    else if c = '\\' then do
      let (t, n) ← escape? cs
      let rest ← unquoteAfter n cs
      some (t ++ rest)
    else do
      let rest ← unquoteAfter 0 cs
      some (String.utf8EncodeChar c ++ rest)

/-- The text that a double-quoted sequence of characters stands for. -/
def unquote? : List Char → Option Text
  | '"' :: cs => unquoteAfter 0 cs
  | _ => none

end StackLift.Text
