/-
# Quoted texts of documents

A text stands between double quotes, with escapes, or between single quotes, as it is; between
three quotes of either kind it may go over several lines.
-/
import StackLift.Toml.Basic

namespace StackLift.Toml

/-! ## Escapes -/

/-- The character that a letter after a backslash stands for. -/
def letterEscape? : Char → Option Char
  | 'b' => some '\x08'
  | 't' => some '\t'
  | 'n' => some '\n'
  | 'f' => some '\x0c'
  | 'r' => some '\r'
  | 'e' => some '\x1b'
  | '"' => some '"'
  | '\\' => some '\\'
  | _ => none

/-- How many hexadecimal digits follow a letter after a backslash. -/
def escapeWidth? : Char → Option Nat
  | 'x' => some 2
  | 'u' => some 4
  | 'U' => some 8
  | _ => none

/-- The character that an escape stands for, and how many characters it takes.  The argument
starts after the backslash. -/
def escape? : List Char → Option (Char × Nat)
  | [] => none
  | c :: cs =>
    match letterEscape? c with
    | some d => some (d, 1)
    | none => do
      let width ← escapeWidth? c
      if cs.length < width then none
      else
        let n ← Text.hexNumber? (cs.take width)
        if n.isValidChar then some (Char.ofNat n, width + 1) else none

/-! ## On one line -/

/-- Reads a text with escapes up to its closing quote, after `skip` characters that are already
read. -/
def readBasic (skip : Nat) : Reader (List Char)
  | [] => none
  | c :: cs =>
    match skip with
    | skip + 1 => readBasic skip cs
    | 0 =>
      if c = '"' then some ([], cs)
      else if isLineEnd c then none
      else if c = '\\' then do
        let (d, n) ← escape? cs
        let (s, rest) ← readBasic n cs
        some (d :: s, rest)
      else do
        let (s, rest) ← readBasic 0 cs
        some (c :: s, rest)

/-- Reads a text without escapes up to its closing quote. -/
def readLiteral : Reader (List Char)
  | [] => none
  | c :: cs =>
    if c = '\x27' then some ([], cs)
    else if isLineEnd c then none
    else do
      let (s, rest) ← readLiteral cs
      some (c :: s, rest)

/-! ## Over several lines -/

/-- How many spaces and line ends follow a backslash, if a line ends among them. -/
def lineBreak? (cs : List Char) : Option Nat :=
  let space := cs.takeWhile fun c => isGap c || isLineEnd c
  if '\n' ∈ space then some space.length else none

/-- Whether no more than two quotes before the closing three were read already.  The text so far
is given from its end; after a backslash a third one is let through. -/
def hasRoom (quote : Char) : List Char → Bool
  | a :: b :: before => !(a == quote && b == quote) || (quote == '"' && before.head? == some '\\')
  | _ => true

/-- What three quotes or fewer at the start of a text mean. -/
inductive QuoteRun
  /-- They close the text; what follows them is given. -/
  | closes (rest : List Char)
  /-- The first one belongs to the text. -/
  | inside
  | tooMany
  deriving DecidableEq, Repr

/-- What a quote means, by what stands before it, from the end, and after it. -/
def quoteRun (quote : Char) (before : List Char) : List Char → QuoteRun
  | b :: c :: rest =>
    if b = quote ∧ c = quote then
      if rest.head? = some quote then if hasRoom quote before then .inside else .tooMany
      else .closes rest
    else .inside
  | _ => .inside

/-- Reads a text with escapes up to its three closing quotes.  A backslash at the end of a line
leaves out all space up to the next word. -/
def readLongBasic (before : List Char) (skip : Nat) : Reader (List Char)
  | [] => none
  | c :: cs =>
    match skip with
    | skip + 1 => readLongBasic (c :: before) skip cs
    | 0 =>
      if c = '\\' then
        match lineBreak? cs with
        | some n => readLongBasic (c :: before) n cs
        | none => do
          let (d, n) ← escape? cs
          let (s, rest) ← readLongBasic (c :: before) n cs
          some (d :: s, rest)
      else
        match if c = '"' then quoteRun c before cs else .inside with
        | .closes rest => some ([], rest)
        | .tooMany => none
        | .inside => do
          let (s, rest) ← readLongBasic (c :: before) 0 cs
          some (c :: s, rest)

/-- Reads a text without escapes up to its three closing quotes. -/
def readLongLiteral (before : List Char) : Reader (List Char)
  | [] => none
  | c :: cs =>
    match if c = '\x27' then quoteRun c before cs else .inside with
    | .closes rest => some ([], rest)
    | .tooMany => none
    | .inside => do
      let (s, rest) ← readLongLiteral (c :: before) cs
      some (c :: s, rest)

/-- Leaves out a line end at the start of a text. -/
def dropLineEnd : List Char → List Char
  | '\n' :: cs => cs
  | '\r' :: '\n' :: cs => cs
  | cs => cs

/-! ## Texts -/

/-- Reads a text of one line. -/
def readShortText : Reader (List Char)
  | '"' :: cs => readBasic 0 cs
  | '\x27' :: cs => readLiteral cs
  | _ => none

/-- Reads a text. -/
def readText : Reader (List Char)
  | '"' :: '"' :: '"' :: cs => readLongBasic [] 0 (dropLineEnd cs)
  | '\x27' :: '\x27' :: '\x27' :: cs => readLongLiteral [] (dropLineEnd cs)
  | cs => readShortText cs

end StackLift.Toml
