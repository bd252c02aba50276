/-
# Documents

A document is a tree of tables.  Headers and dotted keys make the tables on their way; a table
made on the way is *open*, and may be defined once more.  A key that is not open is defined only
once.

The pairs of a table that is a value are added twice: to the document, where the value stands, and
to a table of its own.  The table of its own is the value; it takes the place of what the document
has there if the key counts as a list.

* `Document.addValue` adds what is inside of a value;
* `Document.ofStatements?` builds the tree;
* `Document.parse?` reads a document.
-/
import Std.Data.HashSet
import StackLift.Toml.Statement
import StackLift.Toml.Table

namespace StackLift.Toml

/-! ## Documents -/

/-- A document, and what is known about its keys while it is built. -/
structure Document where
  /-- The tables; the one of number 0 is the root. -/
  tables : Tables := #[[]]
  /-- The keys in the order in which they are written. -/
  keys : Array Key := #[]
  /-- Keys that may be defined once more. -/
  opened : Std.HashSet Key := ∅
  /-- Keys whose value was last a list. -/
  lists : Std.HashSet Key := ∅
  deriving Repr, Inhabited

namespace Document

/-- The table that the first names of keys are in. -/
def root (d : Document) : Table := d.tables.table 0

/-- Marks a key as open. -/
def markOpen (d : Document) (key : Key) : Document := { d with opened := d.opened.insert key }

/-- Marks a key as not open. -/
def markClosed (d : Document) (key : Key) : Document := { d with opened := d.opened.erase key }

/-- Marks whether a key is a list. -/
def markList (d : Document) (key : Key) (isList : Bool) : Document :=
  { d with lists := if isList then d.lists.insert key else d.lists.erase key }

/-- The key that is marked as a list or not for the value of a key: an empty name in a table
stands for the table. -/
def listKey (key : Key) : Key :=
  if key.getLast? = some "" ∧ 1 < key.length then key.dropLast else key

/-- Adds a key to those that are written. -/
def note (d : Document) (key : Key) : Document := { d with keys := d.keys.push key }

/-- Gives a name in a table to a node. -/
def put (d : Document) (i : Nat) (name : String) (n : Node) : Document :=
  { d with tables := d.tables.put i name n }

/-- The document with one more table, and its number. -/
def newTable (d : Document) : Nat × Document :=
  (d.tables.size, { d with tables := d.tables.grow })

/-- Defines a key.  One that is there already must be open; only a list takes the new node. -/
def define (d : Document) (key : Key) (n : Node) : Option Document := do
  let name ← key.getLast?
  let i ← d.tables.follow? 0 key.dropLast
  match d.tables.find? i name with
  | none => some (d.put i name n)
  | some _ =>
    if key ∉ d.opened then none
    else if key ∈ d.lists then some ((d.markClosed key).put i name n)
    else some (d.markClosed key)

/-- The keys of the tables that a key lies in, from the outside, without the first `n`. -/
def parents (key : Key) (n : Nat) : List Key :=
  (List.range' (n + 1) (key.length - 1 - n)).map key.take

/-- Makes the tables that a key lies in; those that were not there are open. -/
def ensureParents (d : Document) (key : Key) : Option Document := do
  let (tables, n) ← d.tables.reach? 0 key.dropLast
  some ((parents key n).foldl markOpen { d with tables })

/-- Defines a table. -/
def openTable (d : Document) (key : Key) : Option Document := do
  let d ← d.ensureParents key
  let (j, d) := d.newTable
  d.define key (.table j)

/-- Adds a table to a list of tables. -/
def openElement (d : Document) (key : Key) : Option Document := do
  let d ← d.ensureParents key
  let name ← key.getLast?
  let i ← d.tables.follow? 0 key.dropLast
  match d.tables.find? i name with
  | none | some (.tables _) =>
    let (j, d) := d.newTable
    some (d.put i name (.tables j))
  | some _ => none

/-- Makes the tables that a dotted key in a context lies in, each of which may be there and may
be defined once more. -/
def openWay (d : Document) (context key : Key) : Option Document :=
  (parents key 0).foldlM (fun d k => (d.markOpen (context ++ k)).openTable (context ++ k)) d

/-- Whether a value is a list. -/
def isList : Written → Bool
  | .array _ => true
  | _ => false

/-- Makes what a key in a context lies in, and notes the key. -/
def startPair (d : Document) (context key : Key) : Option Document := do
  let d ← d.openWay context key
  some (d.note (context ++ key))

/-- Gives a key to a value whose inside was added already. -/
def finishPair (d : Document) (key : Key) (v : Written) (n : Node) : Option Document := do
  let d ← d.define key n
  some (d.markList (listKey key) (isList v))

mutual

/-- Adds what is inside of the value of a key, and returns what the value is. -/
def addValue (d : Document) (key : Key) (inList : Bool) (v : Written) :
    Option (Node × Document) :=
  match v with
  | .array items => do
    let d ← (d.markList (listKey key) true).addItems key items
    some (.value v, d)
  | .table pairs => do
    let d := d.markOpen key
    let d ← if inList then d.openElement key else d.openTable key
    let (own, d) := d.newTable
    let d ← d.addPairs key own pairs
    some (.table own, d)
  | v => some (.value v, d)

/-- Adds what is inside of the items of a list. -/
def addItems (d : Document) (key : Key) (items : List Written) : Option Document :=
  match items with
  | [] => some d
  | v :: vs => do
    let (_, d) ← d.addValue key true v
    d.addItems key vs

/-- Gives keys in a context, and in a table of their own, to values. -/
def addPairs (d : Document) (context : Key) (own : Nat) (pairs : List (Key × Written)) :
    Option Document :=
  match pairs with
  | [] => some d
  | (k, v) :: ps => do
    let d ← d.startPair context k
    let (n, d) ← d.addValue (context ++ k) false v
    let d ← d.finishPair (context ++ k) v n
    let tables ← d.tables.extend? own n k
    { d with tables }.addPairs context own ps

end

/-- Adds statements that stand in the table of a context. -/
def addStatements (d : Document) (context : Key) : List Statement → Option Document
  | [] => some d
  | .pair key v :: ss => do
    let d ← d.startPair context key
    let (n, d) ← d.addValue (context ++ key) false v
    let d ← d.finishPair (context ++ key) v n
    d.addStatements context ss
  | .table key :: ss => do
    let d ← d.openTable key
    ((d.markList key false).note key).addStatements key ss
  | .element key :: ss => do
    let d ← d.openElement key
    ((d.markList key false).note key).addStatements key ss

/-- The document of statements. -/
def ofStatements? (ss : List Statement) : Option Document := ({} : Document).addStatements [] ss

/-- The document that a source is. -/
def parse? (source : String) : Option Document := readStatements source >>= ofStatements?

end Document

end StackLift.Toml
