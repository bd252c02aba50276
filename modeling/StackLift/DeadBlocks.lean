/-
# Dead blocks

A block with neither predecessors nor successors is dead.  The entry stays in the graph even if
it is the only block.
-/
import StackLift.Graph.Basic
import StackLift.Trace

namespace StackLift.Graph

/-- The dead blocks of a graph but for the entry, in ascending order of offset. -/
def deadBlocks (g : Graph) : List BlockId :=
  g.live.filter fun b => g.entry? ≠ some b && (g.block b).isDead

/-- The dead blocks, and the graph without them. -/
def stripDead (g : Graph) : List BlockId × Graph :=
  (g.deadBlocks, g.deadBlocks.foldl discard g)

/-- The graph without the dead blocks, each of which is checked when it is removed. -/
def removeDead (g : Graph) : Except Inconsistency Graph := g.deadBlocks.foldlM remove g

/-- What is told about removed blocks. -/
def removalEvents (g : Graph) (dead : List BlockId) : List Trace.Event :=
  dead.map fun b => .about .deadBlocks "dead block removed"
    [("block", .text (g.nameOf b)), ("code", .int (g.block b).code.length)]

end StackLift.Graph
