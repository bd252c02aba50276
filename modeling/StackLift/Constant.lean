/-
# Constants

The constants of a function: none, the two truth values, 64-bit integers, floating-point numbers
and byte strings.  `Constant.parse` reads one from the text of a listing, `Constant.text` writes
one in running text and `Constant.literal` writes one so that it can be read back.
-/
import StackLift.Number.FloatLiteral
import StackLift.Number.Shortest
import StackLift.Text.Blank
import StackLift.Text.Quoted

namespace StackLift

/-- A constant of a function. -/
inductive Constant
  | none
  | bool (b : Bool)
  | int (n : Int)
  | float (x : Number.Binary64)
  | str (t : Text)
  deriving DecidableEq, Repr

namespace Constant

/-! ## Reading -/

/-- Why a text is no constant. -/
inductive Error
  | empty
  | badString
  | unsupported (text : String)
  deriving DecidableEq, Repr

/-- How an error is worded. -/
def Error.message : Error → String
  | .empty => "empty constant"
  | .badString => "string constant: invalid syntax"
  | .unsupported text => "unsupported constant: " ++ Text.quoteString text

/-- The quote that stands at both ends of a text. -/
def quoteOf? : List Char → Option Char
  | q :: rest => if (q = '\'' ∨ q = '"') ∧ rest.getLast? = some q then some q else Option.none
  | [] => Option.none

/-- The number that a text spells, as an integer if it can be one. -/
def number? (cs : List Char) : Option Constant :=
  match Number.literal? cs with
  | some n => some (.int n)
  | Option.none => (Number.floatLiteral? cs).map .float

/-- Reads a constant, blanks around it left out.  Between single quotes every character stands
for itself; between double quotes a backslash starts an escape. -/
def parse (s : String) : Except Error Constant :=
  let cs := Text.trim s.toList
  if cs = "None".toList then .ok .none
  else if cs = "True".toList then .ok (.bool true)
  else if cs = "False".toList then .ok (.bool false)
  else if cs.isEmpty then .error .empty
  else
    match quoteOf? cs with
    | some '\'' => .ok (.str (Text.ofChars (cs.drop 1).dropLast))
    | some _ =>
      match Text.unquote? cs with
      | some t => .ok (.str t)
      | Option.none => .error .badString
    | Option.none =>
      match number? cs with
      | some c => .ok c
      | Option.none => .error (.unsupported (String.ofList cs))

/-! ## Writing -/

/-- Numbers from `0.0001` to below a million are written without an exponent, and exponents have
two digits at least. -/
def floatLayout : Number.Layout := ⟨-4, 6, 2⟩

/-- A constant in running text: strings as they are. -/
def text : Constant → Text
  | .none => "None"
  | .bool b => if b then "true" else "false"
  | .int n => toString n
  | .float x => floatLayout.text x
  | .str t => t

/-- A constant in a dump: strings in quotes. -/
def literal : Constant → Text
  | .str t => Text.quote t
  | c => c.text

end Constant

end StackLift
