/-
# Lifting a function

The blocks to be walked are taken in ascending order of offset.  A block is walked from its first
instruction to one that leaves it, or to the instruction before another block.  Then the passes
run: dominators, dead blocks, phis.

* `Lift.walk` walks one block, `Lift.traverse` all of them;
* `Lifter.lift` lifts a function;
* `Lifter.compile` does so from its code.
-/
import StackLift.DeadBlocks
import StackLift.Lifting.Step

namespace StackLift.Lift

/-! ## Walking -/

/-- Pushes the arguments, on the line before the first one. -/
def pushArguments : Lift Unit := do
  let code := (← get).code
  modify fun s => { s with line := Number.wrap (code.firstLine - 1) }
  code.signature.args.zipIdx.forM fun (name, i) => pushNew (.arg i name)

/-- Steps the instructions that `find` gives from an offset on until the block is left.  There are
not more of them than instructions unless their links run in a circle. -/
def walkFrom (find : Int → Option Instruction) (offset : Int) : (fuel : Nat) → Lift Unit
  | 0 => throw .endless
  | fuel + 1 => do
    match find offset with
    | none =>
      let s ← get
      fail (.fallsOff (s.graph.offset s.current) offset)
    | some i =>
      step i
      let s ← get
      if (s.graph.block s.current).isTerminated then pure ()
      else
        match s.graph.find? i.next with
        | some b => jumpTo b
        | none => walkFrom find i.next fuel

/-- Walks the block at an offset. -/
def walk (find : Int → Option Instruction) (offset : Int) : Lift Unit := do
  let b ← ensure offset
  modify fun s => { s with current := b }
  tell (.about .block "block start" [("block", .text (blockName offset))])
  if offset = 0 then pushArguments
  walkFrom find offset ((← get).code.instructions.length + 1)
  let s ← get
  let x := s.graph.block b
  tell (.about .block "block done"
    [("block", .text (blockName offset)), ("code", .int x.code.length),
      ("stack", .int x.stack.length), ("phis", .int x.phis.size),
      ("succs", .texts (x.succs.map s.graph.nameOf))])

/-- Walks the blocks to be walked, the lowest offset first.  Less than `fuel` of them are marked. -/
def traverse (find : Int → Option Instruction) : (fuel : Nat) → Lift Unit
  | 0 => throw .endless
  | fuel + 1 => do
    let s ← get
    match s.pending.first? with
    | none => pure ()
    | some offset =>
      let pending ← orFault (s.pending.erase offset)
      set { s with pending }
      if ← orFault (s.processed.contains offset) then traverse find fuel
      else
        match s.processed.insert offset with
        | .ok () processed => modify fun s => { s with processed }
        | .error f _ => throw (.fault f)
        walk find offset
        traverse find fuel

/-! ## Passes -/

/-- Refuses parameters that cannot be lifted. -/
def checkSignature (s : Signature) : Lift Unit := do
  if s.defaults ≠ 0 then fail (.signature .defaults)
  if s.varargs ≠ "" then fail (.signature (.varargs s.varargs))
  if s.kwargs ≠ "" then fail (.signature (.kwargs s.kwargs))

/-- Finds the dominators, and removes the dead blocks unless they are to be kept. -/
def findDominators : Lift Unit := do
  let s ← get
  let (d, sweeps) ← orFault (Dominators.checkedSolve s.graph)
  let s := s.tellAll (Dominators.sweepEvents sweeps)
  let backbone ← orFault (d.checkedBackbone s.graph)
  if s.options.keepDead then set { s with dominators := some d, backbone }
  else
    match s.graph.removeDead with
    | .error i => inconsistent i
    | .ok graph =>
      let dead := s.graph.deadBlocks
      let d := dead.foldl Dominators.forget d
      let s := s.tellAll (s.graph.removalEvents dead)
      let backbone ← orFault (d.checkedBackbone graph)
      set { s with graph, dead, dominators := some d, backbone }

/-- The depth that no stack of a function reaches. -/
def depthLimit (c : Code) : Int := c.instructions.length + c.signature.args.length + 1

/-- Completes the phis. -/
def completePhis : Lift Unit := do
  let s ← get
  match s.graph.completePhis (depthLimit s.code) with
  | .ok () r => set { s with graph := r.graph, events := s.events ++ r.events }
  | .error stop r =>
    set { s with graph := r.graph, events := s.events ++ r.events }
    match stop with
    | .error e => fail (.stack e)
    | .fault f => throw (.fault f)
    | .endless => throw .endless

/-- Checks the phis and tells about the graph. -/
def finish : Lift Unit := do
  let s ← get
  match s.graph.verifyPhis with
  | .error i => inconsistent i
  | .ok () => tell ⟨.message none, "graph built",
      [("blocks", .int s.graph.live.length), ("insts", .int s.graph.valueCount),
        ("dead", .int s.dead.length), ("backbone", .texts (s.backbone.map s.graph.nameOf))]⟩

/-- More than the blocks that can ever be marked as to be walked: each walk marks two at most,
and no block is walked twice. -/
def traverseFuel (c : Code) : Nat := 2 * c.instructions.length + 4

/-- Lifts a function, once. -/
def all : Lift Unit := do
  let s ← get
  if s.started then fail .alreadyLifted
  set { s with started := true }
  checkSignature s.code.signature
  let index := s.code.index
  traverse (fun offset => index[offset]?) (traverseFuel s.code)
  findDominators
  completePhis
  finish

end StackLift.Lift

namespace StackLift

/-- The text of an error that stopped an operation. -/
def Stop.error? : Stop ε → Option ε
  | .error e => some e
  | _ => none

namespace Lifter

/-- Tells the end of a span. -/
def close (message : LiftError → String) :
    EStateM.Result (Stop LiftError) Lifter Unit → EStateM.Result (Stop LiftError) Lifter Unit
  | .ok () s => .ok () (s.tell (.closes none))
  | .error stop s => .error stop (s.tell (.closes (stop.error?.map message)))

/-- Lifts the function of a lifter. -/
def lift (s : Lifter) : EStateM.Result (Stop LiftError) Lifter Unit :=
  close LiftError.message (Lift.all (s.tell (.opens "symbolic: interpret"
    [("func", .text s.code.name), ("insts", .int s.code.instructions.length),
      ("labels", .int s.code.labels.length)])))

/-- How an error is worded that stopped the compilation of a function. -/
def compileMessage (code : Code) (e : LiftError) : String :=
  "interpret " ++ code.name ++ ": " ++ e.message

/-- Compiles a function to a graph. -/
def compile (code : Code) (options : LiftOptions) : EStateM.Result (Stop LiftError) Lifter Unit :=
  close (compileMessage code)
    (lift ((ofCode code options).tell (.opens "compile" [("func", .text code.name)])))

end Lifter

end StackLift
