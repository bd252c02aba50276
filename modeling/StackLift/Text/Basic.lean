/-
# Texts as bytes

A text is the list of its bytes.  Source texts and names are character strings, but a
string constant may hold any bytes, and so may everything that is printed from one.

* `Text.ofString` : the UTF-8 bytes of a string;
* `Text.pieces`   : a text cut into the characters it spells and the stray bytes between them;
* `Text.toString?`: the string a text spells, when it spells one.
-/

namespace StackLift

/-- A text: its bytes, which need not be valid UTF-8. -/
abbrev Text := List UInt8

namespace Text

/-! ## Characters to bytes -/

/-- The UTF-8 bytes of a sequence of characters. -/
def ofChars (cs : List Char) : Text := cs.flatMap String.utf8EncodeChar

/-- The UTF-8 bytes of a string. -/
def ofString (s : String) : Text := ofChars s.toList

instance : Coe String Text := ⟨ofString⟩

@[simp]
theorem ofChars_nil : ofChars [] = [] := rfl

@[simp]
theorem ofChars_cons (c : Char) (cs : List Char) :
    ofChars (c :: cs) = String.utf8EncodeChar c ++ ofChars cs := by
  simp [ofChars]

@[simp]
theorem ofChars_append (cs ds : List Char) : ofChars (cs ++ ds) = ofChars cs ++ ofChars ds := by
  simp [ofChars]

/-! ## Bytes to characters -/

/-- A part of a text: a character it spells, or a byte that is part of no character. -/
inductive Piece
  | char (c : Char)
  | stray (b : UInt8)
  deriving DecidableEq, Repr

/-- The bits a byte adds to the character it continues, when it can continue one. -/
def tailBits? (b : UInt8) : Option Nat :=
  if 0x80 ≤ b ∧ b < 0xC0 then some (b.toNat - 0x80) else none

/-- The character with number `n`, when `n` is a character number and not below `least`.
The bound refuses spellings longer than the character needs. -/
def scalar? (least n : Nat) : Option Char :=
  if least ≤ n ∧ n.isValidChar then some (Char.ofNat n) else none

/-- The character that a text starts with. -/
def charAt? : Text → Option Char
  | [] => none
  | b :: rest =>
    if b < 0x80 then some (Char.ofNat b.toNat)
    else if b < 0xC0 then none
    else if b < 0xE0 then
      match rest with
      | b₁ :: _ => do
        let t₁ ← tailBits? b₁
        scalar? 0x80 ((b.toNat - 0xC0) * 64 + t₁)
      | _ => none
    else if b < 0xF0 then
      match rest with
      | b₁ :: b₂ :: _ => do
        let t₁ ← tailBits? b₁
        let t₂ ← tailBits? b₂
        scalar? 0x800 (((b.toNat - 0xE0) * 64 + t₁) * 64 + t₂)
      | _ => none
    else if b < 0xF8 then
      match rest with
      | b₁ :: b₂ :: b₃ :: _ => do
        let t₁ ← tailBits? b₁
        let t₂ ← tailBits? b₂
        let t₃ ← tailBits? b₃
        scalar? 0x10000 ((((b.toNat - 0xF0) * 64 + t₁) * 64 + t₂) * 64 + t₃)
      | _ => none
    else none

/-- The pieces of a text after its first `n` bytes. -/
def piecesAfter : Nat → Text → List Piece
  | _, [] => []
  | n + 1, _ :: rest => piecesAfter n rest
  | 0, b :: rest =>
    match charAt? (b :: rest) with
    | some c => .char c :: piecesAfter (c.utf8Size - 1) rest
    | none => .stray b :: piecesAfter 0 rest

/-- A text cut into characters and stray bytes, from left to right. -/
def pieces (t : Text) : List Piece := piecesAfter 0 t

/-- The character of a piece that is one. -/
def Piece.char? : Piece → Option Char
  | .char c => some c
  | .stray _ => none

/-- The characters of a text without stray bytes. -/
def chars? (t : Text) : Option (List Char) := (pieces t).mapM Piece.char?

/-- The string that a text spells, when it is valid UTF-8. -/
def toString? (t : Text) : Option String := (chars? t).map String.ofList

end Text

end StackLift
