/-
# Records

A record is a map whose keys are numbers; a key may also be the text of its number.  Of a field
given twice the first counts, fields that nobody asks for are passed over, and the item for
nothing leaves a field as if it were not given.
-/
import StackLift.Item.Datum
import StackLift.Number.Integer

namespace StackLift.Item

/-! ## Fields -/

/-- The key of a field. -/
inductive FieldKey
  | number (n : Int)
  | name (t : Text)
  deriving DecidableEq, Repr

/-- The fields of a record, in order. -/
abbrev Record := List (FieldKey × Item)

/-- The key that an item is; a text has to be valid.  Large numbers wrap, but not those that are
far below zero. -/
def fieldKey? : Item → Option FieldKey
  | .unsigned n => some (.number (Number.wrap n))
  | .negative n => if n < 9223372036854775808 then some (.number (-1 - n)) else none
  | .text t => if t.toString?.isSome then some (.name t) else none
  | _ => none

/-- Whether a key is that of the field with a number. -/
def FieldKey.isFor (k : FieldKey) (field : Nat) : Bool :=
  match k with
  | .number n => n == field
  | .name t => t == Text.ofString (toString field)

/-- The fields of pairs, all of which need a key. -/
def fields? : List (Item × Item) → Option Record
  | [] => some []
  | (k, v) :: ps => do
    let k ← fieldKey? k
    let r ← fields? ps
    some ((k, v) :: r)

/-- The item of a field. -/
def Record.get? (r : Record) (field : Nat) : Option Item :=
  (r.find? fun (k, _) => k.isFor field).map (·.2)

/-- The value of a field, or `zero` if it is not given. -/
def Record.value? (r : Record) (field : Nat) (read : Item → Option α) (zero : α) : Option α :=
  match r.get? field with
  | some i => read i
  | none => some zero

/-! ## Values of fields -/

/-- Whether an item may stand under a tag that has a meaning: a date is a text, a time a number,
and a large integer a string of bytes. -/
def fitsTag (tag : Nat) : Item → Bool
  | .text _ | .brokenText _ => tag ≠ 1 && tag ≠ 2 && tag ≠ 3
  | .unsigned _ | .negative _ | .float _ => tag ≠ 0 && tag ≠ 2 && tag ≠ 3
  | .bytes _ => tag ≠ 0 && tag ≠ 1
  | _ => 3 < tag

/-- The item under the tags of an item, all of which fit; a large integer keeps its tag. -/
def untag? : Item → Option Item
  | .tag n content =>
    if !fitsTag n content then none
    else if n = 2 ∨ n = 3 then some (.tag n content)
    else untag? content
  | i => some i

/-- Whether an item stands for nothing. -/
def isNothing : Item → Bool
  | .simple n => n == 22 || n == 23
  | _ => false

/-- The 64-bit integer that an item is. -/
def toInt64? (i : Item) : Option Int := do
  let v ← match ← untag? i with
    | .unsigned n => some (n : Int)
    | .negative n => some (-1 - n : Int)
    | .tag n content => Datum.bigInt? n content
    | .simple n => if n = 20 ∨ n = 21 then none else some (if n = 22 ∨ n = 23 then 0 else n)
    | _ => none
  if Number.isInt64 v then some v else none

/-- The valid text that an item is. -/
def toText? (i : Item) : Option Text := do
  let i ← untag? i
  if isNothing i then some []
  else
    match i with
    | .text t => if t.toString?.isSome then some t else none
    | _ => none

/-- The string that an item is. -/
def toString? (i : Item) : Option String := do
  let t ← toText? i
  Text.toString? t

/-- The elements of the list that an item is. -/
def toList? (element : Item → Option α) (i : Item) : Option (List α) := do
  let i ← untag? i
  if isNothing i then some []
  else
    match i with
    | .array items => items.mapM element
    | _ => none

/-- The record that an item is. -/
def toRecord? (i : Item) : Option Record := do
  let i ← untag? i
  if isNothing i then some []
  else
    match i with
    | .map pairs => fields? pairs
    | _ => none

end StackLift.Item
