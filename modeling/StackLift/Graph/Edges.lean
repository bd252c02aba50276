/-
# Edges

A terminator connects its block to its targets.  An edge stands in two lists, among the
successors of one block and the predecessors of the other, and in each only once.
-/
import StackLift.Graph.Basic

namespace StackLift.Graph

/-- Adds an element that a list does not have yet at its end. -/
def addNew [DecidableEq α] (a : α) (l : List α) : List α := if a ∈ l then l else l ++ [a]

/-- The graph with an edge. -/
def connect (g : Graph) (b next : BlockId) : Graph :=
  (g.modifyBlock b fun x => { x with succs := addNew next x.succs }).modifyBlock next
    fun x => { x with preds := addNew b x.preds }

/-- The graph in which a block that was open is left by a terminator. -/
def terminate (g : Graph) (b : BlockId) (line : Int) (t : Terminator) :
    Except Inconsistency Graph :=
  match (g.block b).terminator with
  | some old => .error (.alreadyTerminated (g.offset b) old.kindName)
  | none =>
    let g' := g.modifyBlock b fun x => { x with terminator := some t, terminatorLine := line }
    .ok (t.targets.foldl (fun g s => g.connect b s) g')

/-! ## Incoming values -/

/-- The value that flows into a phi from a block. -/
def incoming? (p : Phi) (b : BlockId) : Option Operand :=
  (p.incomings.find? (·.block == b)).map (·.value)

/-- Whether a value flows into a phi from a block. -/
def hasIncoming (g : Graph) (v : ValueId) (b : BlockId) : Bool :=
  (g.definition v).phi?.any fun p => (incoming? p b).isSome

/-- The graph with a value that flows into a phi from a block. -/
def putIncoming (g : Graph) (v : ValueId) (b : BlockId) (value : Operand) : Graph :=
  g.modifyPhi v fun p => { p with incomings := p.incomings ++ [⟨b, value⟩] }

/-- Adds the value that flows into a phi from a block, which must not have one yet. -/
def addIncoming (g : Graph) (v : ValueId) (b : BlockId) (value : Operand) :
    Except Inconsistency Graph :=
  if g.hasIncoming v b then .error (.duplicateIncoming (g.offset b))
  else .ok (g.putIncoming v b value)

/-- Marks a phi as complete. -/
def markComplete (g : Graph) (v : ValueId) : Graph :=
  g.modifyPhi v fun p => { p with complete := true }

end StackLift.Graph
