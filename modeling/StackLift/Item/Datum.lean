/-
# Data of any kind

A datum is what an item means where anything may stand.  Times and items under other tags mean
something as well, but no datum; in a map they may stand under a key that a later pair takes.
-/
import StackLift.Item.Decode
import StackLift.Timestamp

namespace StackLift

/-- A value of any kind. -/
inductive Datum
  | null
  | bool (b : Bool)
  | int (n : Int)
  | float (x : Number.Binary64)
  /-- A value that has a number and nothing else. -/
  | simple (n : Nat)
  | text (t : Text)
  | bytes (b : Text)
  | list (items : List Datum)
  | map (pairs : List (Datum × Datum))
  deriving Repr, Inhabited

namespace Datum

/-! ## Keys of maps -/

/-- Whether two floating-point numbers are equal: the two zeros are, and what is no number is not
equal to anything. -/
def sameFloat (x y : Number.Binary64) : Bool :=
  !x.isNaN && !y.isNaN && (x == y || (x.magnitude == 0 && y.magnitude == 0))

/-- Whether two keys are the same. -/
def sameKey : Datum → Datum → Bool
  | .null, .null => true
  | .bool a, .bool b => a == b
  | .int a, .int b => a == b
  | .float x, .float y => sameFloat x y
  | .simple a, .simple b => a == b
  | .text a, .text b => a == b
  | .bytes a, .bytes b => a == b
  | _, _ => false

/-- Puts a value under a key, in place of the same key and its value. -/
def put (same : α → α → Bool) (k : α) (v : β) : List (α × β) → List (α × β)
  | [] => [(k, v)]
  | (k', v') :: ps => if same k' k then (k, v) :: ps else (k', v') :: put same k v ps

/-! ## Tags -/

/-- The integer of a tagged string of bytes. -/
def bigInt? (tag : Nat) (content : Item) : Option Int :=
  match tag, content with
  | 2, .bytes b => some (Item.ofBigEndian b)
  | 3, .bytes b => some (-1 - Item.ofBigEndian b)
  | _, _ => none

/-- The tag that only says how the item under it is encoded. -/
def encodingMark : Nat := 55799

/-- Whether a tagged item is a time: a text, or the number of seconds since a fixed day. -/
def isTime (tag : Nat) (content : Item) : Bool :=
  match tag, content with
  | 0, .text t => t.toString?.any fun s => Timestamp.isFull s.toList
  | 1, .unsigned n => n < 9223372036854775808
  | 1, .negative n => n < 9223372036854775808
  | 1, .float _ => true
  | _, _ => false

/-- Whether an item may be a key of a map: no list or map is one, and no integer that is tagged or
too large for 64 bits. -/
def isKey : Item → Bool
  | .array _ | .map _ => false
  | .negative n => n < 9223372036854775808
  | .tag n content => n != 2 && n != 3 && isKey content
  | _ => true

/-! ## From items -/

/-- Whether two keys are the same, as far as they are data. -/
def sameKey? (a b : Option Datum) : Bool :=
  match a, b with
  | some a, some b => sameKey a b
  | _, _ => false

/-- Pairs of data, if all of them are. -/
def allPairs (ps : List (Option Datum × Option Datum)) : Option (List (Datum × Datum)) :=
  ps.mapM fun (k, v) => do some (← k, ← v)

mutual

/-- What an item means, if it means something: unsigned numbers are below `2 ^ 63`, texts are
valid, and the keys of maps may be keys.  There is no datum for what means something else. -/
def meaning? : Item → Option (Option Datum)
  | .unsigned n => if n < 9223372036854775808 then some (some (.int n)) else none
  | .negative n => some (some (.int (-1 - n)))
  | .bytes b => some (some (.bytes b))
  | .text t => if t.toString?.isSome then some (some (.text t)) else none
  | .brokenText _ => none
  | .array items => (meanings? items).map fun ds => (ds.mapM id).map .list
  | .map pairs => (pairMeanings? [] pairs).map fun ps => (allPairs ps).map .map
  | .tag n content =>
    if n = encodingMark then meaning? content
    else if n = 2 ∨ n = 3 then (bigInt? n content).map fun v => some (.int v)
    else if n = 0 ∨ n = 1 then if isTime n content then some none else none
    else (meaning? content).map fun _ => none
  | .simple n =>
    if n = 20 then some (some (.bool false))
    else if n = 21 then some (some (.bool true))
    else if n = 22 ∨ n = 23 then some (some .null)
    else some (some (.simple n))
  | .float x => some (some (.float x))

/-- What items mean. -/
def meanings? : List Item → Option (List (Option Datum))
  | [] => some []
  | i :: is => do
    let d ← meaning? i
    let ds ← meanings? is
    some (d :: ds)

/-- What pairs mean, added to others; the last of several with one key counts. -/
def pairMeanings? (before : List (Option Datum × Option Datum)) :
    List (Item × Item) → Option (List (Option Datum × Option Datum))
  | [] => some before
  | (k, v) :: ps => do
    let key ← meaning? k
    let value ← meaning? v
    if isKey k then pairMeanings? (put sameKey? key value before) ps else none

end

/-- The datum that an item means. -/
def ofItem? (i : Item) : Option Datum := (meaning? i).join

/-! ## To items -/

mutual

/-- The item of a datum. -/
def toItem : Datum → Item
  | .null => .nothing
  | .bool b => .bool b
  | .int n => .int n
  | .float x => .float x
  | .simple n => .simple n
  | .text t => .text t
  | .bytes b => .bytes b
  | .list items => .array (toItems items)
  | .map pairs => .map (toPairs pairs)

/-- The items of data. -/
def toItems : List Datum → List Item
  | [] => []
  | d :: ds => d.toItem :: toItems ds

/-- The items of pairs. -/
def toPairs : List (Datum × Datum) → List (Item × Item)
  | [] => []
  | (k, v) :: ps => (k.toItem, v.toItem) :: toPairs ps

end

end Datum

end StackLift
