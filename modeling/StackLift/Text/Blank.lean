/-
# Blanks, fields and lines

The blank characters are those with the Unicode property White_Space.  Two functions cut a
sequence of characters: `fields` at its blanks, `lines` at its line feeds.
-/

namespace StackLift.Text

/-! ## Blank characters -/

/-- The blanks: the ASCII ones, next line, no-break space, and the spaces and separators of the
other blocks.  A zero-width space or a byte order mark is no blank. -/
def isBlank (c : Char) : Bool :=
  let n := c.toNat
  (0x09 ≤ n && n ≤ 0x0D) || n == 0x20 || n == 0x85 || n == 0xA0 || n == 0x1680 ||
    (0x2000 ≤ n && n ≤ 0x200A) || n == 0x2028 || n == 0x2029 || n == 0x202F || n == 0x205F ||
    n == 0x3000

/-- A sequence without the blanks at its two ends. -/
def trim (cs : List Char) : List Char :=
  ((cs.dropWhile isBlank).reverse.dropWhile isBlank).reverse

/-! ## Fields and lines -/

/-- Puts a character that is no blank before characters with the given fields: at the beginning
of the first field if that begins the characters, and as a field of its own otherwise. -/
def addToFields (c : Char) (cs : List Char) (fields : List (List Char)) : List (List Char) :=
  match cs, fields with
  | d :: _, w :: ws => if isBlank d then [c] :: w :: ws else (c :: w) :: ws
  | _, _ => [[c]]

/-- The maximal runs of characters that are no blanks. -/
def fields : List Char → List (List Char)
  | [] => []
  | c :: cs => if isBlank c then fields cs else addToFields c cs (fields cs)

/-- The parts of a sequence between its line feeds, of which there is always one at least. -/
def lines : List Char → List (List Char)
  | [] => [[]]
  | c :: cs =>
    if c = '\n' then [] :: lines cs
    else
      match lines cs with
      | l :: ls => (c :: l) :: ls
      | [] => [[c]]

/-! ## Width -/

/-- A string filled up with spaces on its left to `width` characters. -/
def padLeft (width : Nat) (s : String) : String :=
  String.ofList (List.replicate (width - s.length) ' ') ++ s

/-- A string filled up with spaces on its right to `width` characters. -/
def padRight (width : Nat) (s : String) : String :=
  s ++ String.ofList (List.replicate (width - s.length) ' ')

end StackLift.Text
