/-
# The state of a lift

A lifter walks over the code of a function.  It holds the graph made so far, the offsets of
blocks still to be walked and of those already walked, the block it is in, and what it has told.

`Lift` are the computations on that state.  One that stops leaves the state as it was reached.
-/
import StackLift.BitSet
import StackLift.Code.Basic
import StackLift.Dominators
import StackLift.Lifting.Error

namespace StackLift

/-- A choice for lifting. -/
structure LiftOptions where
  /-- Whether unreachable blocks stay in the graph. -/
  keepDead : Bool := false
  deriving DecidableEq, Repr, Inhabited

/-- The state of lifting a function. -/
structure Lifter where
  options : LiftOptions
  code : Code
  graph : Graph
  /-- The offsets of blocks to be walked. -/
  pending : BitSet
  /-- The offsets of blocks that were walked, or are being walked. -/
  processed : BitSet
  /-- The block that is being walked. -/
  current : BlockId := 0
  /-- The source line of the instruction that is being stepped. -/
  line : Int := 0
  /-- Whether lifting was started. -/
  started : Bool := false
  dominators : Option Dominators := none
  /-- The blocks on every way to the last block. -/
  backbone : List BlockId := []
  /-- The blocks that were removed. -/
  dead : List BlockId := []
  events : Array Trace.Event := #[]
  deriving Repr, Inhabited

/-- Computations of a lifter. -/
abbrev Lift := EStateM (Stop LiftError) Lifter

namespace Lifter

/-- A lifter for a function, with a block at each jump target and the entry to be walked. -/
def ofCode (code : Code) (options : LiftOptions) : Lifter :=
  { options
    code
    graph := code.labels.foldl (fun g offset => (g.ensure offset).2) Graph.empty
    pending := (BitSet.empty 0).setBit 0
    processed := BitSet.empty 0 }

/-- The lifter with one more event told. -/
def tell (s : Lifter) (e : Trace.Event) : Lifter := { s with events := s.events.push e }

/-- The lifter with more events told. -/
def tellAll (s : Lifter) (es : List Trace.Event) : Lifter :=
  { s with events := s.events ++ es.toArray }

end Lifter

namespace Lift

/-! ## Stopping -/

/-- Stops at an error. -/
def fail (e : LiftError) : Lift α := throw (.error e)

/-- Stops at an inconsistency. -/
def inconsistent (i : Inconsistency) : Lift α := throw (.fault (.inconsistent i))

/-- The result of an operation on sets, which may be a fault. -/
def orFault (r : Except Fault α) : Lift α :=
  match r with
  | .ok a => pure a
  | .error f => throw (.fault f)

/-! ## The graph -/

/-- Tells an event. -/
def tell (e : Trace.Event) : Lift Unit := modify (·.tell e)

/-- Runs an operation on the graph. -/
def onGraph (f : Graph → α × Graph) : Lift α :=
  modifyGet fun s =>
    let (a, g) := f s.graph
    (a, { s with graph := g })

/-- The block at an offset, which is made if there is none. -/
def ensure (offset : Int) : Lift BlockId := onGraph (·.ensure offset)

/-- A new value at the end of a block, on the current line. -/
def defineIn (b : BlockId) (e : Expr) : Lift ValueId := do
  let line := (← get).line
  onGraph (·.define b line (some e))

/-- A new value at the end of a block, which is pushed there. -/
def pushIn (b : BlockId) (e : Expr) : Lift Unit := do
  let v ← defineIn b e
  onGraph fun g => ((), g.push b (some v))

/-- A new value of the current block, which is pushed. -/
def pushNew (e : Expr) : Lift Unit := do pushIn (← get).current e

/-- Tells about a value taken from below the stack of the block.  A value has to be there. -/
def tellUnderflow (v : Operand) : Lift Unit := do
  let s ← get
  match v with
  | none => throw (.fault .outOfRange)
  | some u =>
    match (s.graph.definition u).phi? with
    | some p => tell (.about .phi "stack underflow"
        [("block", .text (s.graph.nameOf s.current)), ("phi", .text v.text),
          ("slot", .int p.slot), ("line", .int s.line)])
    | none => pure ()

/-- The current block and the current line. -/
def position : Lift (BlockId × Int) := do
  let s ← get
  return (s.current, s.line)

/-- Takes the top of the stack. -/
def pop : Lift Operand := do
  let (block, line) ← position
  let v ← onGraph (·.pop block line)
  tellUnderflow v
  return v

/-- The top of the stack. -/
def peek : Lift Operand := do
  let (block, line) ← position
  let v ← onGraph (·.peek block line)
  tellUnderflow v
  return v

/-- A call of an operator, whose result is pushed. -/
def operate (o : Operator) (args : List Operand) : Lift Unit :=
  pushNew (.call (some (.operator o)) args [])

/-! ## Flow of control -/

/-- Marks a block as to be walked. -/
def schedule (b : BlockId) : Lift Unit := do
  let s ← get
  match s.pending.insert (s.graph.offset b) with
  | .ok () pending => set { s with pending }
  | .error f pending =>
    set { s with pending }
    throw (.fault f)

/-- Leaves the current block. -/
def terminate (t : Terminator) : Lift Unit := do
  let s ← get
  match s.graph.terminate s.current s.line t with
  | .ok graph => set { s with graph }
  | .error i => inconsistent i

/-- Leaves the current block for another one. -/
def jumpTo (target : BlockId) : Lift Unit := do
  schedule target
  terminate (.jump target)

/-- Leaves the current block for one of two. -/
def branchTo (cond : Operand) (ifTrue ifFalse : BlockId) : Lift Unit := do
  schedule ifTrue
  schedule ifFalse
  terminate (.branch cond ifTrue ifFalse)

end Lift

end StackLift
