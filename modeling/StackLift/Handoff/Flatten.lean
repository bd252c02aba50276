/-
# Flattening a graph

A dead block without a terminator is left out.  Of a block that has edges, every value and the
terminator must be known.
-/
import StackLift.Fault
import StackLift.Graph.Basic
import StackLift.Handoff.Basic

namespace StackLift.Handoff

/-- What cannot be handed over. -/
inductive Cause
  | noExpr
  | noCallee
  | noTerminator
  deriving DecidableEq, Repr

/-- What cannot be handed over, and the offset of its block. -/
structure Error where
  block : Int
  cause : Cause
  deriving DecidableEq, Repr

/-- How an error is worded. -/
def Error.message (e : Error) : String :=
  "block " ++ blockName e.block ++ ": " ++
    match e.cause with
    | .noExpr => "unsupported value: <nil>"
    | .noCallee => "unsupported callee: <nil>"
    | .noTerminator => "unsupported terminator: <nil>"

/-- The number of a value, which must not be missing. -/
def number (v : Operand) : Except (Stop Cause) Int :=
  match v with
  | some v => .ok v
  | none => .error (.fault .outOfRange)

/-- A constant as a datum. -/
def datum : Constant → Datum
  | .none => .null
  | .bool b => .bool b
  | .int n => .int n
  | .float x => .float x
  | .str t => .text t

/-- A value, its line and number being filled in. -/
def flattenExpr (g : Graph) (x : Inst) : Option Expr → Except (Stop Cause) Inst
  | none => .error (.error .noExpr)
  | some e =>
    match e with
    | .arg index name => .ok { x with kind := "arg", num := index, name }
    | .const .none => .ok { x with kind := "none" }
    | .const c => .ok { x with kind := "const", const := datum c }
    | .global name => .ok { x with kind := "global", name }
    | .load name => .ok { x with kind := "load", name }
    | .store name value => do
      let value ← number value
      .ok { x with kind := "store", name, value }
    | .call callee args keywords => do
      let x ← match callee with
        | some (.operator o) => .ok { x with kind := "call", callee := o.name }
        | some (.value v) => .ok { x with kind := "call", calleeId := v }
        | none => .error (.error .noCallee)
      let args ← args.mapM number
      let keywords ← keywords.mapM fun k => do
        let value ← number k.value
        .ok { name := k.name, value }
      .ok { x with args, keywords }
    | .phi p => do
      let incomings ← p.incomings.mapM fun i => do
        let value ← number i.value
        .ok { block := g.offset i.block, value }
      .ok { x with kind := "phi", slot := p.slot, incomings }

/-- A value. -/
def flattenValue (g : Graph) (v : ValueId) : Except (Stop Cause) Inst :=
  let d := g.definition v
  flattenExpr g { id := v, line := d.line } d.expr

/-- How a block is left. -/
def flattenTerminator (g : Graph) : Option Terminator → Except (Stop Cause) Term
  | none => .error (.error .noTerminator)
  | some t =>
    let targets := t.targets.map g.offset
    match t with
    | .jump _ => .ok { kind := "jump", targets }
    | .branch cond _ _ => do
      let value ← number cond
      .ok { kind := "branch", value, targets }
    | .ret v => do
      let value ← number v
      .ok { kind := "ret", value }
    | .retVoid => .ok { kind := "retvoid" }

/-- A block. -/
def flattenBlock (g : Graph) (b : BlockId) : Except (Stop Cause) Block := do
  let x := g.block b
  let insts ← x.code.mapM (flattenValue g)
  let term ← flattenTerminator g x.terminator
  .ok { offset := x.offset, preds := x.preds.map g.offset, succs := x.succs.map g.offset,
        insts, term }

/-- Whether a block is handed over. -/
def isKept (b : StackLift.Block) : Bool := b.isTerminated || !b.isDead

/-- A stop inside of a block. -/
def stopIn (block : Int) : Stop Cause → Stop Error
  | .error cause => .error ⟨block, cause⟩
  | .fault f => .fault f
  | .endless => .endless

/-- A graph with the name and the parameters of its function. -/
def flatten (name : String) (args : List String) (g : Graph) :
    Except (Stop Error) Function := do
  let kept := g.live.filter fun b => isKept (g.block b)
  let blocks ← kept.mapM fun b => (flattenBlock g b).mapError (stopIn (g.offset b))
  .ok { name, args, blocks }

end StackLift.Handoff
