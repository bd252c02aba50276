/-
# Block graphs

A graph holds the blocks of one function and the values they compute.  Values and blocks are
named by numbers, given in order of creation and never given twice; a block that is removed keeps
its number, and a new block at its offset gets a new one.

A block starts with one phi for each entry slot that was asked for: the phi of slot `k` stands
for the value `k` below the top of the stack that the block is entered with.  Its own stack holds
what was pushed since.

* `Graph.live` : the blocks in the graph, in ascending order of offset;
* `Graph.find?`, `Graph.ensure`, `Graph.discard` : blocks by offset;
* `Graph.define` : a new value at the end of a block.
-/
import StackLift.Constant
import StackLift.Fault
import StackLift.Item.LogRecord

namespace StackLift

/-- The number of a block. -/
abbrev BlockId := Nat

/-- The number of a value. -/
abbrev ValueId := Nat

/-- A value that is used, or a missing one. -/
abbrev Operand := Option ValueId

/-! ## Values -/

/-- A built-in operation, by its name. -/
structure Operator where
  name : String
  deriving DecidableEq, Repr, Inhabited

/-- What is called. -/
inductive Callee
  | operator (o : Operator)
  | value (v : ValueId)
  deriving DecidableEq, Repr

/-- An argument passed by name. -/
structure Keyword where
  name : Text
  value : Operand
  deriving DecidableEq, Repr

/-- The value that flows in from a predecessor. -/
structure Incoming where
  block : BlockId
  value : Operand
  deriving DecidableEq, Repr

/-- The value of an entry slot, one of its incoming values. -/
structure Phi where
  slot : Int
  incomings : List Incoming := []
  /-- Whether all incoming values are there. -/
  complete : Bool := false
  deriving DecidableEq, Repr

/-- How a value is computed. -/
inductive Expr
  | arg (index : Int) (name : String)
  | const (c : Constant)
  | global (name : String)
  | load (name : String)
  | store (name : String) (value : Operand)
  | call (callee : Option Callee) (args : List Operand) (keywords : List Keyword)
  | phi (p : Phi)
  deriving DecidableEq, Repr

/-- A value: where it is computed, on which source line, and how. -/
structure Definition where
  line : Int
  block : BlockId
  expr : Option Expr
  deriving DecidableEq, Repr, Inhabited

/-- The phi that a value is. -/
def Definition.phi? (d : Definition) : Option Phi :=
  match d.expr with
  | some (.phi p) => some p
  | _ => none

/-! ## Blocks -/

/-- How a block is left. -/
inductive Terminator
  | jump (target : BlockId)
  | branch (cond : Operand) (ifTrue ifFalse : BlockId)
  | ret (value : Operand)
  | retVoid
  deriving DecidableEq, Repr

/-- The blocks that a terminator leads to. -/
def Terminator.targets : Terminator → List BlockId
  | .jump target => [target]
  | .branch _ ifTrue ifFalse => [ifTrue, ifFalse]
  | .ret _ => []
  | .retVoid => []

/-- The name of a terminator in messages. -/
def Terminator.kindName : Terminator → String
  | .jump _ => "ir.Jump"
  | .branch .. => "ir.Branch"
  | .ret _ => "ir.Ret"
  | .retVoid => "ir.RetVoid"

/-- A basic block. -/
structure Block where
  /-- The offset of its first instruction. -/
  offset : Int
  /-- The phis of its entry slots, by slot. -/
  phis : Array ValueId := #[]
  /-- The other values, in the order in which they are computed. -/
  body : Array ValueId := #[]
  terminator : Option Terminator := none
  terminatorLine : Int := 0
  /-- What was pushed and not popped, the top first. -/
  stack : List Operand := []
  /-- How many entry slots were popped. -/
  used : Nat := 0
  preds : List BlockId := []
  succs : List BlockId := []
  deriving DecidableEq, Repr, Inhabited

namespace Block

/-- All values of a block, phis first. -/
def code (b : Block) : List ValueId := b.phis.toList ++ b.body.toList

/-- Whether a block is left somehow. -/
def isTerminated (b : Block) : Bool := b.terminator.isSome

/-- Whether nothing leads to a block and it leads nowhere. -/
def isDead (b : Block) : Bool := b.preds.isEmpty && b.succs.isEmpty

/-- The name of a block. -/
def name (b : Block) : String := blockName b.offset

end Block

/-! ## Graphs -/

/-- The blocks and values of a function. -/
structure Graph where
  /-- All blocks ever made, by number. -/
  blocks : Array Block := #[]
  /-- All values ever made, by number. -/
  definitions : Array Definition := #[]
  /-- The blocks in the graph, in ascending order of offset. -/
  live : List BlockId := []
  deriving DecidableEq, Repr, Inhabited

namespace Graph

/-- The graph without blocks. -/
def empty : Graph := {}

/-- A block, by its number. -/
def block (g : Graph) (b : BlockId) : Block := g.blocks.getD b default

/-- A value, by its number. -/
def definition (g : Graph) (v : ValueId) : Definition := g.definitions.getD v default

/-- The offset of a block. -/
def offset (g : Graph) (b : BlockId) : Int := (g.block b).offset

/-- The name of a block. -/
def nameOf (g : Graph) (b : BlockId) : String := blockName (g.offset b)

/-- How many values were ever made. -/
def valueCount (g : Graph) : Nat := g.definitions.size

/-- The graph with one block changed. -/
def modifyBlock (g : Graph) (b : BlockId) (f : Block → Block) : Graph :=
  { g with blocks := g.blocks.modify b f }

/-- The graph with one phi changed. -/
def modifyPhi (g : Graph) (v : ValueId) (f : Phi → Phi) : Graph :=
  { g with definitions := g.definitions.modify v fun d =>
      match d.expr with
      | some (.phi p) => { d with expr := some (.phi (f p)) }
      | _ => d }

/-! ## Blocks by offset -/

/-- The block at an offset. -/
def find? (g : Graph) (offset : Int) : Option BlockId :=
  g.live.find? fun b => g.offset b == offset

/-- Whether there is a block at an offset. -/
def has (g : Graph) (offset : Int) : Bool := (g.find? offset).isSome

/-- The block at which the function starts. -/
def entry? (g : Graph) : Option BlockId := g.find? 0

/-- The block with the highest offset. -/
def last? (g : Graph) : Option BlockId := g.live.getLast?

/-- Puts a block in its place among others in ascending order of offset. -/
def insertByOffset (offsetOf : BlockId → Int) (b : BlockId) : List BlockId → List BlockId
  | [] => [b]
  | c :: cs => if offsetOf b < offsetOf c then b :: c :: cs else c :: insertByOffset offsetOf b cs

/-- The graph with a new block at an offset. -/
def addBlock (g : Graph) (offset : Int) : Graph :=
  let g' := { g with blocks := g.blocks.push { offset } }
  { g' with live := insertByOffset g'.offset g.blocks.size g.live }

/-- The block at an offset, which is made if there is none. -/
def ensure (g : Graph) (offset : Int) : BlockId × Graph :=
  match g.find? offset with
  | some b => (b, g)
  | none => (g.blocks.size, g.addBlock offset)

/-- The graph without a block. -/
def discard (g : Graph) (b : BlockId) : Graph := { g with live := g.live.erase b }

/-- The graph without a block that has no edges left. -/
def remove (g : Graph) (b : BlockId) : Except Inconsistency Graph :=
  let x := g.block b
  if x.isDead then
    if b ∈ g.live then .ok (g.discard b) else .error (.removeForeign x.offset)
  else .error (.removeConnected x.offset (x.preds.map g.offset) (x.succs.map g.offset))

/-! ## Values of a block -/

/-- The graph with a new value, which belongs to a block but is not yet in its code. -/
def addDefinition (g : Graph) (b : BlockId) (line : Int) (e : Option Expr) : Graph :=
  { g with definitions := g.definitions.push ⟨line, b, e⟩ }

/-- A new value at the end of a block. -/
def define (g : Graph) (b : BlockId) (line : Int) (e : Option Expr) : ValueId × Graph :=
  let v := g.definitions.size
  (v, (g.addDefinition b line e).modifyBlock b fun x => { x with body := x.body.push v })

/-- The first known source line of a block. -/
def lineOf (g : Graph) (b : BlockId) : Int :=
  let x := g.block b
  let isKnown (v : ValueId) : Bool := (g.definition v).line != 0
  match x.phis.find? isKnown <|> x.body.find? isKnown with
  | some v => (g.definition v).line
  | none => x.terminatorLine

/-! ## In log records -/

/-- A block in a log record. -/
def blockRecord (g : Graph) (b : BlockId) : Text := Item.LogRecord.text (g.nameOf b)

end Graph

/-- The text of a value that is used. -/
def Operand.text : Operand → String
  | some v => valueName v
  | none => "<nil>"

/-- A value in a log record. -/
def Operand.record : Operand → Text
  | some v => Item.LogRecord.text (valueName v)
  | none => Item.LogRecord.null

end StackLift
