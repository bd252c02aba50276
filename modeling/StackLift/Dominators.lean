/-
# Dominators

A block dominates another one if every way from the entry to the other one leads through it.
`Dominators.solve` starts from the set of all blocks everywhere but at the entry, and sweeps over
the blocks until nothing changes: a block is dominated by itself and by what dominates all of its
predecessors.  A block without predecessors keeps the full set.

* `Dominators.checkedSolve` : the same by operations on sets that refuse what they are not made for;
* `Dominators.of` : the dominators of a block, in ascending order of offset;
* `Dominators.dominates` : the relation;
* `Dominators.backbone` : the dominators of the last block;
* `Dominators.forget` : leaves out a removed block.
-/
import StackLift.BitSet
import StackLift.Graph.Basic
import StackLift.Trace

namespace StackLift

/-- For each block of a graph the set of the blocks that dominate it, as positions in a list. -/
structure Dominators where
  /-- The blocks, in ascending order of offset. -/
  blocks : List BlockId
  /-- The dominators of the block at each position. -/
  sets : Array BitSet
  /-- The positions of blocks that were forgotten. -/
  gone : BitSet
  deriving DecidableEq, Repr, Inhabited

namespace Dominators

/-! ## Solving -/

/-- The position of a block among the blocks of a graph; a block outside the graph counts as the
first one. -/
def position (blocks : List BlockId) (b : BlockId) : Nat := (blocks.idxOf? b).getD 0

/-- The positions of all blocks but the entry, each with the positions of its predecessors. -/
def rows (g : Graph) : List (Nat × List Nat) :=
  (g.live.zipIdx.filter fun (b, _) => g.entry? ≠ some b).map fun (b, i) =>
    (i, (g.block b).preds.map (position g.live))

/-- The sets to start from: the entry by itself, and all blocks elsewhere. -/
def start (g : Graph) : Array BitSet :=
  let all := BitSet.fill 0 g.live.length
  (g.live.zipIdx.map fun (b, i) =>
    if g.entry? = some b then (BitSet.empty 0).setBit i else all).toArray

/-- The set of a position. -/
def setAt (sets : Array BitSet) (i : Nat) : BitSet := sets.getD i (BitSet.empty 0)

/-- What dominates the blocks at all of some positions, and the position `i`. -/
def meet (sets : Array BitSet) (i : Nat) : List Nat → BitSet
  | [] => setAt sets i
  | p :: ps => (ps.foldl (fun s q => s.interBits (setAt sets q)) (setAt sets p)).setBit i

/-- Sweeps over blocks with their predecessors, and tells whether a set changed. -/
def sweep (sets : Array BitSet) : List (Nat × List Nat) → Array BitSet × Bool
  | [] => (sets, false)
  | (i, preds) :: rest =>
    let new := meet sets i preds
    if new.sameBits (setAt sets i) then sweep sets rest
    else ((sweep (sets.setIfInBounds i new) rest).1, true)

/-- Sweeps until nothing changes, at most `fuel` times, and tells of each sweep whether it
changed something. -/
def iterate (rows : List (Nat × List Nat)) (sets : Array BitSet) :
    (fuel : Nat) → Array BitSet × List Bool
  | 0 => (sets, [])
  | fuel + 1 =>
    let (sets', changed) := sweep sets rows
    if changed then
      let (result, more) := iterate rows sets' fuel
      (result, true :: more)
    else (sets', [false])

/-- The dominators of a graph, and of each sweep whether it changed something.  A sweep that
changes a set takes a block out of it, so there are not more of them than pairs of blocks. -/
def solve (g : Graph) : Dominators × List Bool :=
  let n := g.live.length
  let (sets, sweeps) := iterate (rows g) (start g) (n * n + 1)
  (⟨g.live, sets, BitSet.empty 0⟩, sweeps)

/-! ## Solving with checks -/

/-- The set of a position, which is out of range if there is none. -/
def setFor (sets : Array BitSet) (i : Nat) : Except Fault BitSet :=
  match sets[i]? with
  | some s => .ok s
  | none => .error .outOfRange

/-- The set with one more key. -/
def withKey (s : BitSet) (k : Int) : Except Fault BitSet :=
  match s.insert k with
  | .ok () s' => .ok s'
  | .error f _ => .error f

/-- The set with the keys only that the set of a position has too. -/
def meetWith (sets : Array BitSet) (s : BitSet) (p : Nat) : Except Fault BitSet := do
  s.inter (← setFor sets p)

/-- `meet` with checks. -/
def checkedMeet (sets : Array BitSet) (i : Nat) : List Nat → Except Fault BitSet
  | [] => setFor sets i
  | p :: ps => do
    let first ← setFor sets p
    let common ← ps.foldlM (meetWith sets) first
    withKey common i

/-- `sweep` with checks. -/
def checkedSweep (sets : Array BitSet) : List (Nat × List Nat) → Except Fault (Array BitSet × Bool)
  | [] => .ok (sets, false)
  | (i, preds) :: rest => do
    let new ← checkedMeet sets i preds
    let old ← setFor sets i
    let same ← new.equal old
    if same then checkedSweep sets rest
    else do
      let (sets', _) ← checkedSweep (sets.setIfInBounds i new) rest
      return (sets', true)

/-- `iterate` with checks. -/
def checkedIterate (rows : List (Nat × List Nat)) (sets : Array BitSet) :
    (fuel : Nat) → Except Fault (Array BitSet × List Bool)
  | 0 => .ok (sets, [])
  | fuel + 1 => do
    let (sets', changed) ← checkedSweep sets rows
    if changed then do
      let (result, more) ← checkedIterate rows sets' fuel
      return (result, true :: more)
    else return (sets', [false])

/-- `solve` with checks. -/
def checkedSolve (g : Graph) : Except Fault (Dominators × List Bool) := do
  let n := g.live.length
  let (sets, sweeps) ← checkedIterate (rows g) (start g) (n * n + 1)
  return (⟨g.live, sets, BitSet.empty 0⟩, sweeps)

/-- What is told about the sweeps. -/
def sweepEvents (sweeps : List Bool) : List Trace.Event :=
  sweeps.zipIdx.map fun (changed, i) =>
    .about .dominators "dominators iteration" [("iter", .int i), ("changed", .bool changed)]

/-! ## Asking -/

/-- The position of a block that has dominators. -/
def indexOf? (d : Dominators) (b : BlockId) : Option Nat := d.blocks.idxOf? b

/-- The blocks at the positions in a set, but for those that were forgotten. -/
def blocksIn (d : Dominators) (s : BitSet) : List BlockId :=
  (d.blocks.zipIdx.filter fun (_, j) => s.hasBit j && !d.gone.hasBit j).map (·.1)

/-- The dominators of a block, in ascending order of offset. -/
def of (d : Dominators) (b : BlockId) : List BlockId :=
  match d.indexOf? b with
  | none => []
  | some i => d.blocksIn (setAt d.sets i)

/-- Whether every way from the entry to `b` leads through `a`. -/
def dominates (d : Dominators) (a b : BlockId) : Bool :=
  match d.indexOf? a, d.indexOf? b with
  | some i, some j => !d.gone.hasBit i && (setAt d.sets j).hasBit i
  | _, _ => false

/-- The blocks on every way from the entry to the last block. -/
def backbone (d : Dominators) (g : Graph) : List BlockId :=
  match g.last? with
  | some b => d.of b
  | none => []

/-- `backbone` with checks: the keys of a set have to be positions. -/
def checkedBackbone (d : Dominators) (g : Graph) : Except Fault (List BlockId) :=
  match g.last?.bind d.indexOf? with
  | none => .ok []
  | some i => do
    let s ← setFor d.sets i
    if s.bits.all (· < d.blocks.length) then .ok (d.blocksIn s) else .error .outOfRange

/-- Leaves a removed block out of all sets. -/
def forget (d : Dominators) (b : BlockId) : Dominators :=
  match d.indexOf? b with
  | some i => { d with gone := d.gone.setBit i }
  | none => d

end Dominators

end StackLift
