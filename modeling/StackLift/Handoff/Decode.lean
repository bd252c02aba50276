/-
# Reading the hand-off form

Fields that are not given are zero or empty.
-/
import StackLift.Handoff.Basic
import StackLift.Item.Record

namespace StackLift.Handoff

open Item

/-- Reads an integer field. -/
def intOf (r : Record) (key : Nat) : Option Int := r.value? key toInt64? 0

/-- Reads a string field. -/
def stringOf (r : Record) (key : Nat) : Option String := r.value? key Item.toString? ""

/-- Reads a list field. -/
def listOf (r : Record) (key : Nat) (element : Item → Option α) : Option (List α) :=
  r.value? key (toList? element) []

/-- Reads a keyword. -/
def Keyword.ofItem? (i : Item) : Option Keyword := do
  let r ← toRecord? i
  some { name := ← r.value? 1 toText? [], value := ← intOf r 2 }

/-- Reads an incoming value. -/
def Incoming.ofItem? (i : Item) : Option Incoming := do
  let r ← toRecord? i
  some { block := ← intOf r 1, value := ← intOf r 2 }

/-- Reads a value. -/
def Inst.ofItem? (i : Item) : Option Inst := do
  let r ← toRecord? i
  some
    { id := ← intOf r 1
      line := ← intOf r 2
      kind := ← stringOf r 3
      num := ← intOf r 4
      name := ← stringOf r 5
      const := ← r.value? 6 Datum.ofItem? .null
      value := ← intOf r 7
      callee := ← stringOf r 8
      calleeId := ← intOf r 9
      args := ← listOf r 10 toInt64?
      keywords := ← listOf r 11 Keyword.ofItem?
      slot := ← intOf r 12
      incomings := ← listOf r 13 Incoming.ofItem? }

/-- Reads a terminator. -/
def Term.ofItem? (i : Item) : Option Term := do
  let r ← toRecord? i
  some { kind := ← stringOf r 1, value := ← intOf r 2, targets := ← listOf r 3 toInt64? }

/-- Reads a block. -/
def Block.ofItem? (i : Item) : Option Block := do
  let r ← toRecord? i
  some
    { offset := ← intOf r 1
      preds := ← listOf r 2 toInt64?
      succs := ← listOf r 3 toInt64?
      insts := ← listOf r 4 Inst.ofItem?
      term := ← r.value? 5 Term.ofItem? {} }

/-- Reads a function. -/
def Function.ofItem? (i : Item) : Option Function := do
  let r ← toRecord? i
  some
    { name := ← stringOf r 1
      args := ← listOf r 2 Item.toString?
      blocks := ← listOf r 3 Block.ofItem? }

/-- The function that bytes are. -/
def Function.decode (t : Text) : Option Function := Item.decode t >>= Function.ofItem?

end StackLift.Handoff
