/-
# Completing phis

The phi of entry slot `k` takes from each predecessor the value `k` below the top of the stack
that the predecessor is left with.  Where that stack is too shallow the value passes through: the
predecessor gets a phi of its own, which is completed in the same way.

* `Graph.completePhis` works off a queue of phis, first in, first out;
* `Graph.verifyPhis` checks that nothing is missing.
-/
import StackLift.Graph.Edges
import StackLift.Graph.Stack
import StackLift.Trace

namespace StackLift

/-- Why a function's stack does not work out. -/
inductive StackError
  /-- A block without predecessors takes more from the stack than was pushed. -/
  | underflow (block : Int) (slot line : Int)
  /-- A slot is deeper than any stack can be. -/
  | tooDeep (block : Int) (slot : Int)
  deriving DecidableEq, Repr

/-- How an error is worded. -/
def StackError.message : StackError → String
  | .underflow block slot line =>
    "block " ++ blockName block ++ ": stack underflow at function entry (slot " ++
      toString slot ++ ", line " ++ toString line ++ ")"
  | .tooDeep block slot =>
    "block " ++ blockName block ++ ": stack slot " ++ toString slot ++
      " is deeper than the function can reach"

namespace PhiCompletion

/-! ## The queue -/

/-- Phis to look at.  Those at the front come first; lists that were added wait behind them, the
last one first. -/
structure Queue where
  front : List ValueId
  added : List (List ValueId) := []
  deriving Repr

namespace Queue

/-- The phis of a queue, in the order in which they are looked at. -/
def toList (q : Queue) : List ValueId := q.front ++ q.added.reverse.flatten

/-- Adds phis at the end. -/
def add (q : Queue) (vs : List ValueId) : Queue := { q with added := vs :: q.added }

/-- The first phi, and the others. -/
def next? (q : Queue) : Option (ValueId × Queue) :=
  match q.front with
  | v :: front => some (v, { q with front })
  | [] =>
    match q.added.reverse.flatten with
    | v :: front => some (v, { front })
    | [] => none

/-- Phis are added at the end. -/
@[simp]
theorem toList_add (q : Queue) (vs : List ValueId) : (q.add vs).toList = q.toList ++ vs := by
  simp [add, toList]

/-- The first phi is taken off the queue. -/
theorem toList_of_next?_eq_some {q q' : Queue} {v : ValueId} (h : q.next? = some (v, q')) :
    q.toList = v :: q'.toList := by
  unfold next? at h
  split at h
  · obtain ⟨rfl, rfl⟩ := by simpa using h
    simp_all [toList]
  · split at h
    · obtain ⟨rfl, rfl⟩ := by simpa using h
      simp_all [toList]
    · cases h

/-- A queue without a first phi is empty. -/
theorem toList_of_next?_eq_none {q : Queue} (h : q.next? = none) : q.toList = [] := by
  unfold next? at h
  split at h
  · cases h
  · split at h
    · cases h
    · rename_i hfront _ hadded
      simp [toList, hfront, hadded]

end Queue

/-! ## Steps -/

/-- The graph so far, the phis to look at, and what was told. -/
structure State where
  graph : Graph
  queue : Queue
  events : Array Trace.Event
  deriving Repr

/-- Steps of the completion. -/
abbrev Step := EStateM (Stop StackError) State

/-- What is told about a value that a phi takes from a predecessor. -/
def feedEvent (g : Graph) (v : ValueId) (slot : Int) (pred : BlockId) (value : Operand)
    (through : Bool) : Trace.Event :=
  .about .phi "phi incoming"
    [("phi", .text (valueName v)), ("block", .text (g.nameOf (g.definition v).block)),
      ("slot", .int slot), ("pred", .text (g.nameOf pred)), ("value", .text value.text),
      ("through", .bool through)]

/-- Gives a phi its value from one predecessor. -/
def feed (v : ValueId) (slot : Int) (pred : BlockId) : Step Unit := fun ⟨graph, queue, events⟩ =>
  match graph.exitSlotAt pred (graph.lineOf pred) slot with
  | .error f => .error (.fault f) ⟨graph, queue, events⟩
  | .ok ((value, through), graph) =>
    if graph.hasIncoming v pred then
      .error (.fault (.inconsistent (.duplicateIncoming (graph.offset pred))))
        ⟨graph, queue, events⟩
    else
      let graph := graph.putIncoming v pred value
      let queue := if through then queue.add (graph.block pred).phis.toList else queue
      let event := feedEvent graph v slot pred value through
      .ok () ⟨graph, queue, events.push event⟩

/-- Completes a phi that is not complete yet. -/
def complete (maxDepth : Int) (v : ValueId) (p : Phi) : Step Unit := do
  let g := (← get).graph
  let d := g.definition v
  let preds := (g.block d.block).preds
  if preds.isEmpty then throw (.error (.underflow (g.offset d.block) p.slot d.line))
  if maxDepth ≤ p.slot then throw (.error (.tooDeep (g.offset d.block) p.slot))
  preds.forM (feed v p.slot)
  modify fun s => { s with graph := s.graph.markComplete v }

/-- Works off the queue, in which there are ever less than `fuel` phis. -/
def drain (maxDepth : Int) : (fuel : Nat) → Step Unit
  | 0 => throw .endless
  | fuel + 1 => do
    let s ← get
    match s.queue.next? with
    | none => pure ()
    | some (v, queue) =>
      let phi? := (s.graph.definition v).phi?
      set { s with queue }
      match phi? with
      | some p => if p.complete then pure () else complete maxDepth v p
      | none => throw (.fault .outOfRange)
      drain maxDepth fuel

/-- The phis of all blocks in the graph. -/
def allPhis (g : Graph) : List ValueId := g.live.flatMap fun b => (g.block b).phis.toList

/-- More than the phis that a queue can ever hold: only slots above the depth limit are
completed, and each adds at most all slots of each predecessor to the queue. -/
def fuelFor (g : Graph) (maxDepth : Int) : Nat :=
  let n := g.blocks.size
  let depth := maxDepth.toNat
  let slots := g.blocks.foldl (fun m b => max m (b.phis.size + b.used)) 0 + depth
  (allPhis g).length + n * depth * (n * slots) + 1

end PhiCompletion

namespace Graph

/-- Gives every phi its incoming values.  Also when it stops, the graph holds what was done. -/
def completePhis (g : Graph) (maxDepth : Int) :
    EStateM.Result (Stop StackError) PhiCompletion.State Unit :=
  PhiCompletion.drain maxDepth (PhiCompletion.fuelFor g maxDepth)
    ⟨g, { front := PhiCompletion.allPhis g }, #[]⟩

/-- What is missing from a phi of a block. -/
def phiIssue? (g : Graph) (b : BlockId) (v : ValueId) : Option Inconsistency :=
  match (g.definition v).phi? with
  | none => some (.incompletePhi v (g.offset b))
  | some p =>
    if !p.complete then some (.incompletePhi v (g.offset b))
    else if p.incomings.length ≠ (g.block b).preds.length then
      some (.incomingCount v (g.offset b) p.incomings.length (g.block b).preds.length)
    else none

/-- Checks that every phi is complete and has as many incoming values as predecessors. -/
def verifyPhis (g : Graph) : Except Inconsistency Unit :=
  match g.live.findSome? fun b => (g.block b).phis.findSome? (g.phiIssue? b) with
  | some i => .error i
  | none => .ok ()

end Graph

end StackLift
