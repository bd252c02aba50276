/-
# Keys and values of documents

A TOML document is a list of statements.  A statement gives a value to a key or opens a table;
keys have parts with dots between them.

* `Key.text` writes a key, with quotes around parts that need them;
* `Written` is a value as it is written;
* `Statement` is a line of a document.
-/
import StackLift.Number.Binary
import StackLift.Text.Quoted

namespace StackLift.Toml

/-! ## Keys -/

/-- The parts of a key. -/
abbrev Key := List String

/-- Whether a character may stand in a part of a key without quotes. -/
def isBareChar (c : Char) : Bool := c.isAlphanum || c == '_' || c == '-'

/-- A character inside of a quoted part. -/
def quotedPartChar (c : Char) : List Char :=
  if c = '"' ∨ c = '\\' then ['\\', c]
  else if c.toNat = 0x08 then ['\\', 'b']
  else if c = '\t' then ['\\', 't']
  else if c = '\n' then ['\\', 'n']
  else if c.toNat = 0x0C then ['\\', 'f']
  else if c = '\r' then ['\\', 'r']
  else if c.toNat < 0x20 ∨ c.toNat = 0x7F then '\\' :: 'u' :: Text.hexDigits 4 c.toNat
  else [c]

/-- A part of a key, in quotes if it is empty or not all of its characters are bare. -/
def partText (part : String) : String :=
  if part ≠ "" ∧ part.toList.all isBareChar then part
  else String.ofList ('"' :: part.toList.flatMap quotedPartChar ++ ['"'])

/-- A key as it is written. -/
def Key.text (k : Key) : String := ".".intercalate (k.map partText)

/-! ## Values and statements -/

/-- A value as it is written. -/
inductive Written
  | text (s : String)
  | integer (n : Int)
  | float (x : Number.Binary64)
  | boolean (b : Bool)
  /-- A date, a time of day, or both. -/
  | time (s : String)
  | array (items : List Written)
  | table (pairs : List (Key × Written))
  deriving Repr, Inhabited

/-- A line of a document. -/
inductive Statement
  | pair (key : Key) (value : Written)
  /-- The header of a table. -/
  | table (key : Key)
  /-- The header of one more table in a list of tables. -/
  | element (key : Key)
  deriving Repr, Inhabited

/-! ## Reading -/

/-- A reader returns what it read and the characters after it. -/
abbrev Reader (α : Type) := List Char → Option (α × List Char)

/-- Whether a character divides words of a line. -/
def isGap (c : Char) : Bool := c == ' ' || c == '\t'

/-- Whether a character ends a line. -/
def isLineEnd (c : Char) : Bool := c == '\n' || c == '\r'

/-- Leaves out spaces and tabs. -/
def skipGap (cs : List Char) : List Char := cs.dropWhile isGap

/-- Leaves out spaces, line ends and comments; a comment goes on to the end of its line. -/
def skipSpace (inComment : Bool) : List Char → List Char
  | [] => []
  | c :: cs =>
    if c = '\n' then skipSpace false cs
    else if inComment then skipSpace true cs
    else if isGap c ∨ isLineEnd c then skipSpace false cs
    else if c = '#' then skipSpace true cs
    else c :: cs

/-- Whether a character may stand anywhere in a document. -/
def isAllowed (c : Char) : Bool :=
  isGap c || isLineEnd c || (0x20 ≤ c.toNat && c.toNat ≠ 0x7F)

/-- Whether all characters are allowed, and a carriage return always has a line feed after it. -/
def isClean : List Char → Bool
  | [] => true
  | c :: cs => isAllowed c && (c ≠ '\r' || cs.head? == some '\n') && isClean cs

end StackLift.Toml
