/-
# Reading the statements of a document

A statement takes a line, but for texts, lists and tables that go over several lines by
themselves.  Readers that repeat something take characters as `room`, and repeat it at most once
for each of them.

* `readKey`, `readValue`, `readStatement` read one of each;
* `readStatements` reads all statements of a document.
-/
import StackLift.Toml.Numeral
import StackLift.Toml.Quoted

namespace StackLift.Toml

/-! ## Keys -/

/-- Reads a part of a key. -/
def readPart (cs : List Char) : Option (String × List Char) :=
  match readShortText cs with
  | some (s, rest) => some (String.ofList s, rest)
  | none =>
    let part := cs.takeWhile isBareChar
    if part.isEmpty then none else some (String.ofList part, cs.drop part.length)

/-- Reads the parts of a key, and leaves out the space after it. -/
def readParts : (room : List Char) → Reader Key
  | [], _ => none
  | _ :: room, cs => do
    let (part, cs) ← readPart (skipGap cs)
    match skipGap cs with
    | '.' :: cs => do
      let (parts, cs) ← readParts room cs
      some (part :: parts, cs)
    | cs => some ([part], cs)

/-- Reads a key.  Every part takes a character or more, and so does every dot. -/
def readKey : Reader Key := fun cs => readParts cs cs

/-! ## Values -/

/-- Reads a value that has no values inside. -/
def readScalar : Reader Written
  | 't' :: 'r' :: 'u' :: 'e' :: cs => some (.boolean true, cs)
  | 'f' :: 'a' :: 'l' :: 's' :: 'e' :: cs => some (.boolean false, cs)
  | cs =>
    match readText cs with
    | some (s, rest) => some (.text (String.ofList s), rest)
    | none => Numeral.read cs

/-- Reads elements with commas between them up to a closing character.  A comma may follow the last
one. -/
def readElements (element : Reader α) (closing : Char) : (room : List Char) → Reader (List α)
  | [], _ => none
  | _ :: room, cs =>
    match skipSpace false cs with
    | [] => none
    | c :: rest =>
      if c = closing then some ([], rest)
      else do
        let (a, cs) ← element (c :: rest)
        match skipSpace false cs with
        | [] => none
        | d :: cs =>
          if d = closing then some ([a], cs)
          else if d = ',' then do
            let (as, cs) ← readElements element closing room cs
            some (a :: as, cs)
          else none

/-- Reads a key and its value. -/
def readPair (value : Reader Written) : Reader (Key × Written) := fun cs => do
  let (key, cs) ← readKey cs
  match cs with
  | '=' :: cs => do
    let (v, cs) ← value (skipGap cs)
    some ((key, v), cs)
  | _ => none

/-- Reads a value, the values inside of it with another reader. -/
def readValueWith (inner : Reader Written) : Reader Written
  | '[' :: cs => (readElements inner ']' cs cs).map fun (l, cs) => (.array l, cs)
  | '\x7b' :: cs => (readElements (readPair inner) '\x7d' cs cs).map fun (l, cs) => (.table l, cs)
  | cs => readScalar cs

/-- Reads a value. -/
def readNested : (room : List Char) → Reader Written
  | [], cs => readValueWith (fun _ => none) cs
  | _ :: room, cs => readValueWith (fun cs => readNested room cs) cs

/-- Reads a value.  Every level takes a character. -/
def readValue : Reader Written := fun cs => readNested cs cs

/-! ## Statements -/

/-- Reads the header of a table or a pair. -/
def readStatement : Reader Statement
  | '[' :: '[' :: cs => do
    let (key, cs) ← readKey cs
    match cs with
    | ']' :: ']' :: cs => some (.element key, cs)
    | _ => none
  | '[' :: cs => do
    let (key, cs) ← readKey cs
    match cs with
    | ']' :: cs => some (.table key, cs)
    | _ => none
  | cs => (readPair readValue cs).map fun ((key, value), cs) => (.pair key value, cs)

/-- Whether a statement may end here: at the end of its line or before a comment. -/
def endsStatement (cs : List Char) : Bool :=
  match skipGap cs with
  | [] => true
  | c :: _ => isLineEnd c || c == '#'

/-- Reads statements up to the end. -/
def readAll : (room : List Char) → List Char → Option (List Statement)
  | [], cs => if (skipSpace false cs).isEmpty then some [] else none
  | _ :: room, cs =>
    match skipSpace false cs with
    | [] => some []
    | c :: rest => do
      let (s, cs) ← readStatement (c :: rest)
      if endsStatement cs then do
        let ss ← readAll room cs
        some (s :: ss)
      else none

/-- The characters of a source without the mark of its encoding. -/
def dropMark : List Char → List Char
  | '\ufeff' :: cs => cs
  | cs => cs

/-- The statements of a document.  Every statement takes a character or more. -/
def readStatements (source : String) : Option (List Statement) :=
  let cs := dropMark source.toList
  if isClean cs then readAll cs cs else none

end StackLift.Toml
