/-
# Binary items

An item is a number, a string of bytes or text, a list, a map, a tagged item or a simple value.
`Item.encode` writes an item in its canonical form: with the shortest heads, and a floating-point
number in the shortest of three formats that keeps its value.
-/
import StackLift.Item.Head
import StackLift.Number.Binary

namespace StackLift

/-- A binary item. -/
inductive Item
  | unsigned (n : Nat)
  /-- The number `-1 - n`. -/
  | negative (n : Nat)
  | bytes (b : Text)
  | text (t : Text)
  /-- A text of parts that are not all valid, each by itself. -/
  | brokenText (parts : List Text)
  | array (items : List Item)
  | map (pairs : List (Item × Item))
  | tag (n : Nat) (content : Item)
  | simple (n : Nat)
  | float (x : Number.Binary64)
  deriving Repr, Inhabited

namespace Item

/-! ## Numbers -/

/-- An integer as an item. -/
def int (v : Int) : Item := if 0 ≤ v then .unsigned v.toNat else .negative (-1 - v).toNat

/-- A truth value as an item. -/
def bool (b : Bool) : Item := .simple (if b then 21 else 20)

/-- The item for nothing. -/
def nothing : Item := .simple 22

/-- Whether two finite numbers are the same. -/
def sameScaled (a b : Number.Format.Scaled) : Bool :=
  let least := min a.exponent b.exponent
  a.mantissa * Nat.pow 2 (a.exponent - least).toNat ==
    b.mantissa * Nat.pow 2 (b.exponent - least).toNat

/-- The bits of a finite number in a format that keeps its value. -/
def exactIn? (f : Number.Format) (s : Number.Format.Scaled) : Option Nat :=
  let bits := f.roundScaled s
  if bits < f.infinity ∧ sameScaled (f.unpack bits) s then some bits else none

/-- The bytes of a number in a format of the given width. -/
def encodeFormat (f : Number.Format) (width info : Nat) (negative : Bool) (bits : Nat) : Text :=
  firstByte .simple info ::
    bigEndian width (if negative then f.signBit + bits else bits)

/-- A floating-point number in the shortest format that keeps its value. -/
def encodeFloat (x : Number.Binary64) : Text :=
  open Number.Format in
  if x.isNaN then encodeFormat half 2 25 false (half.infinity + Nat.pow 2 (half.fractionBits - 1))
  else if x.isInfinite then encodeFormat half 2 25 x.isNegative half.infinity
  else
    let s := double.unpack x.magnitude
    match exactIn? half s with
    | some bits => encodeFormat half 2 25 x.isNegative bits
    | none =>
      match exactIn? single s with
      | some bits => encodeFormat single 4 26 x.isNegative bits
      | none => encodeFormat double 8 27 x.isNegative x.magnitude

/-! ## Items -/

mutual

/-- The bytes of an item. -/
def encode : Item → Text
  | .unsigned n => head .unsigned n
  | .negative n => head .negative n
  | .bytes b => head .bytes b.length ++ b
  | .text t => head .text t.length ++ t
  | .brokenText parts =>
    firstByte .text 31 :: parts.flatMap (fun t => head .text t.length ++ t) ++ [stop]
  | .array items => head .array items.length ++ encodeAll items
  | .map pairs => head .map pairs.length ++ encodePairs pairs
  | .tag n content => head .tag n ++ content.encode
  | .simple n => head .simple n
  | .float x => encodeFloat x

/-- The bytes of items, one after the other. -/
def encodeAll : List Item → Text
  | [] => []
  | i :: is => i.encode ++ encodeAll is

/-- The bytes of keys and values, one after the other. -/
def encodePairs : List (Item × Item) → Text
  | [] => []
  | (k, v) :: ps => k.encode ++ v.encode ++ encodePairs ps

end

end Item

end StackLift
