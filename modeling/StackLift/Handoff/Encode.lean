/-
# Writing the hand-off form

Every part is a record whose fields have numbers.  Most fields are left out if they are zero or
empty.
-/
import StackLift.Handoff.Basic

namespace StackLift.Handoff

/-! ## Fields -/

/-- A field that is always written. -/
def field (key : Nat) (i : Item) : List (Item × Item) := [(.unsigned key, i)]

/-- A field that is left out under a condition. -/
def fieldUnless (omitted : Bool) (key : Nat) (i : Item) : List (Item × Item) :=
  if omitted then [] else field key i

/-- An integer that is left out if it is zero. -/
def intField (key : Nat) (n : Int) : List (Item × Item) := fieldUnless (n == 0) key (.int n)

/-- A string as an item. -/
def stringItem (s : String) : Item := .text (Text.ofString s)

/-- A string that is left out if it is empty. -/
def stringField (key : Nat) (s : String) : List (Item × Item) :=
  fieldUnless (s == "") key (stringItem s)

/-- A list that is left out if it is empty. -/
def listField (key : Nat) (item : α → Item) (l : List α) : List (Item × Item) :=
  fieldUnless l.isEmpty key (.array (l.map item))

/-- Whether there is no constant. -/
def isNull : Datum → Bool
  | .null => true
  | _ => false

/-! ## Records -/

/-- The item of a keyword. -/
def Keyword.toItem (k : Keyword) : Item := .map (field 1 (.text k.name) ++ field 2 (.int k.value))

/-- The item of an incoming value. -/
def Incoming.toItem (i : Incoming) : Item :=
  .map (field 1 (.int i.block) ++ field 2 (.int i.value))

/-- The item of a value. -/
def Inst.toItem (x : Inst) : Item :=
  .map (field 1 (.int x.id) ++ intField 2 x.line ++ field 3 (stringItem x.kind) ++
    intField 4 x.num ++ stringField 5 x.name ++ fieldUnless (isNull x.const) 6 x.const.toItem ++
    intField 7 x.value ++ stringField 8 x.callee ++ intField 9 x.calleeId ++
    listField 10 .int x.args ++ listField 11 Keyword.toItem x.keywords ++ intField 12 x.slot ++
    listField 13 Incoming.toItem x.incomings)

/-- The item of a terminator. -/
def Term.toItem (t : Term) : Item :=
  .map (field 1 (stringItem t.kind) ++ intField 2 t.value ++ listField 3 .int t.targets)

/-- The item of a block. -/
def Block.toItem (b : Block) : Item :=
  .map (field 1 (.int b.offset) ++ listField 2 .int b.preds ++ listField 3 .int b.succs ++
    listField 4 Inst.toItem b.insts ++ field 5 b.term.toItem)

/-- The item of a list of blocks: the item for nothing if there are none.  Flattening makes a list
only with its first block, so a list that is there but empty, which would be written as an array
without elements, is not told apart from no list. -/
def blocksItem (bs : List Block) : Item :=
  if bs.isEmpty then .nothing else .array (bs.map Block.toItem)

/-- The item of a function. -/
def Function.toItem (f : Function) : Item :=
  .map (field 1 (stringItem f.name) ++ listField 2 stringItem f.args ++
    field 3 (blocksItem f.blocks))

/-- The bytes of a function. -/
def Function.encode (f : Function) : Text := f.toItem.encode

end StackLift.Handoff
