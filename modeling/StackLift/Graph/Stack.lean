/-
# The stack of a block

A block's stack goes on below with the entry slots that were not popped yet.  Taking from an
empty stack takes the next entry slot, whose phi is made on first use.
-/
import StackLift.Graph.Basic

namespace StackLift.Graph

/-! ## Entry slots -/

/-- The graph with a phi for the next entry slot of a block. -/
def addSlot (g : Graph) (b : BlockId) (line : Int) : Graph :=
  let v := g.definitions.size
  let slot : Phi := { slot := (g.block b).phis.size }
  (g.addDefinition b line (some (.phi slot))).modifyBlock b fun x =>
    { x with phis := x.phis.push v }

/-- The graph with `n` more entry slots of a block. -/
def addSlots (g : Graph) (b : BlockId) (line : Int) : Nat → Graph
  | 0 => g
  | n + 1 => (g.addSlot b line).addSlots b line n

/-- The graph in which a block has the phi of an entry slot. -/
def reach (g : Graph) (b : BlockId) (line : Int) (depth : Nat) : Graph :=
  g.addSlots b line (depth + 1 - (g.block b).phis.size)

/-- The phi for the value `depth` below the top of the stack that a block is entered with. -/
def entrySlot (g : Graph) (b : BlockId) (line : Int) (depth : Nat) : ValueId × Graph :=
  let g' := g.reach b line depth
  ((g'.block b).phis.getD depth 0, g')

/-- The value `depth` below the top of the stack that a block is left with, and whether it
passes through from the entry. -/
def exitSlot (g : Graph) (b : BlockId) (line : Int) (depth : Nat) : (Operand × Bool) × Graph :=
  let x := g.block b
  if h : depth < x.stack.length then ((x.stack[depth], false), g)
  else
    let (v, g') := g.entrySlot b line (x.used + depth - x.stack.length)
    ((some v, true), g')

/-- An entry slot by a depth that may be negative, which is out of range. -/
def entrySlotAt (g : Graph) (b : BlockId) (line depth : Int) : Except Fault (ValueId × Graph) :=
  if depth < 0 then .error .outOfRange else .ok (g.entrySlot b line depth.toNat)

/-- An exit slot by a depth that may be negative, which is out of range. -/
def exitSlotAt (g : Graph) (b : BlockId) (line depth : Int) :
    Except Fault ((Operand × Bool) × Graph) :=
  if depth < 0 then .error .outOfRange else .ok (g.exitSlot b line depth.toNat)

/-! ## Pushing and popping -/

/-- Pushes a value. -/
def push (g : Graph) (b : BlockId) (v : Operand) : Graph :=
  g.modifyBlock b fun x => { x with stack := v :: x.stack }

/-- The top of the stack. -/
def peek (g : Graph) (b : BlockId) (line : Int) : Operand × Graph :=
  match (g.block b).stack with
  | v :: _ => (v, g)
  | [] =>
    let (v, g') := g.entrySlot b line (g.block b).used
    (some v, g')

/-- Takes the top of the stack. -/
def pop (g : Graph) (b : BlockId) (line : Int) : Operand × Graph :=
  match (g.block b).stack with
  | v :: rest => (v, g.modifyBlock b fun x => { x with stack := rest })
  | [] =>
    let (v, g') := g.entrySlot b line (g.block b).used
    (some v, g'.modifyBlock b fun x => { x with used := x.used + 1 })

end StackLift.Graph
