/-
# Numbered tables

The tables of a document are kept by number, and a name in a table stands for a value or for the
number of a table.  So one table can be in two places, in the document and in a value, and what is
added in one of them is in the other as well.

* `Tables.follow?` is the table that a key leads to;
* `Tables.reach?` makes the tables on the way;
* `Tables.extend?` gives a dotted key in a table to a node.
-/
import StackLift.Toml.Basic

namespace StackLift.Toml

/-! ## Tables -/

/-- What a name stands for. -/
inductive Node
  | value (v : Written)
  | table (number : Nat)
  /-- A list of tables, of which only the last one can be added to. -/
  | tables (last : Nat)
  deriving Repr, Inhabited

/-- The table that a longer key leads into. -/
def Node.inner? : Node → Option Nat
  | .value _ => none
  | .table i => some i
  | .tables i => some i

/-- The names of a table and what they stand for, in order. -/
abbrev Table := List (String × Node)

/-- The table with a name given to a node. -/
def Table.put (name : String) (n : Node) : Table → Table
  | [] => [(name, n)]
  | (k, m) :: t => if k = name then (name, n) :: t else (k, m) :: Table.put name n t

/-! ## Tables by number -/

/-- Tables by their numbers. -/
abbrev Tables := Array Table

namespace Tables

/-- The table of a number. -/
def table (ts : Tables) (i : Nat) : Table := ts.getD i []

/-- What a name in a table stands for. -/
def find? (ts : Tables) (i : Nat) (name : String) : Option Node := (ts.table i).lookup name

/-- The tables with a name in one of them given to a node. -/
def put (ts : Tables) (i : Nat) (name : String) (n : Node) : Tables := ts.modify i (·.put name n)

/-- The tables with one more, which is empty. -/
def grow (ts : Tables) : Tables := ts.push []

/-- The table that a key in a table leads to. -/
def follow? (ts : Tables) (i : Nat) : Key → Option Nat
  | [] => some i
  | k :: ks => do
    let n ← ts.find? i k
    follow? ts (← n.inner?) ks

/-- The tables with those on the way of a key, made where there is nothing yet, and how many of
them were there. -/
def reach? (ts : Tables) (i : Nat) : Key → Option (Tables × Nat)
  | [] => some (ts, 0)
  | k :: ks =>
    match ts.find? i k with
    | none => do
      let j := ts.size
      let (ts, _) ← reach? (ts.grow.put i k (.table j)) j ks
      some (ts, 0)
    | some n => do
      let (ts, count) ← reach? ts (← n.inner?) ks
      some (ts, count + 1)

/-- The tables with a dotted key in one of them given to a node, whatever was there.  Tables on
the way are made; what is there already must be a table. -/
def extend? (ts : Tables) (i : Nat) (n : Node) : Key → Option Tables
  | [] => none
  | [k] => some (ts.put i k n)
  | k :: ks =>
    match ts.find? i k with
    | none =>
      let j := ts.size
      extend? (ts.grow.put i k (.table j)) j n ks
    | some (.table j) => extend? ts j n ks
    | some _ => none

end Tables

end StackLift.Toml
