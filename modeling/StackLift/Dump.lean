/-
# Dumps

The text form of a graph, of one of its blocks or of one of its values.  The header of a block
names its predecessors and, if they are known, its dominators.
-/
import StackLift.Dominators
import StackLift.Graph.Basic

namespace StackLift.Dump

/-! ## Errors -/

/-- What cannot be dumped. -/
inductive Cause
  | noExpr
  | noCallee
  | unknownKind (name : String)
  deriving DecidableEq, Repr

/-- What cannot be dumped, and where it stands, as far as that was looked at. -/
structure Error where
  block : Option Int := none
  value : Option ValueId := none
  cause : Cause
  deriving DecidableEq, Repr

/-- How a cause is worded. -/
def Cause.message : Cause → String
  | .noExpr => "unsupported value: <nil>"
  | .noCallee => "unsupported callee: <nil>"
  | .unknownKind name => "unsupported type: " ++ name

/-- How an error is worded. -/
def Error.message (e : Error) : String :=
  let block := match e.block with | some b => "block " ++ blockName b ++ ": " | none => ""
  let value := match e.value with | some v => "inst " ++ valueName v ++ ": " | none => ""
  block ++ value ++ e.cause.message

/-! ## Values -/

/-- Texts with a separator between them. -/
def joinWith (separator : String) : List Text → Text
  | [] => []
  | [t] => t
  | t :: ts => t ++ Text.ofString separator ++ joinWith separator ts

/-- What a call calls. -/
def calleeText : Callee → String
  | .operator o => o.name
  | .value v => valueName v

/-- How a value is computed. -/
def exprText (g : Graph) : Option Expr → Except Cause Text
  | none => .error .noExpr
  | some e =>
    match e with
    | .arg index name => .ok (Text.ofString ("arg " ++ toString index ++ " " ++ name))
    | .const c => .ok (Text.ofString "const " ++ c.literal)
    | .global name => .ok (Text.ofString ("global " ++ name))
    | .load name => .ok (Text.ofString ("load " ++ name))
    | .store name value => .ok (Text.ofString ("store " ++ name ++ ", " ++ value.text))
    | .call none _ _ => .error .noCallee
    | .call (some callee) args keywords =>
      let passed := args.map (fun a => Text.ofString a.text) ++
        keywords.map fun k => k.name ++ Text.ofString ("=" ++ k.value.text)
      .ok (Text.ofString ("call " ++ calleeText callee ++ "(") ++ joinWith ", " passed ++
        Text.ofString ")")
    | .phi p =>
      let incomings := p.incomings.map fun i => g.nameOf i.block ++ ": " ++ i.value.text
      .ok (Text.ofString ("phi." ++ toString p.slot ++ " [" ++ ", ".intercalate incomings ++ "]" ++
        if p.complete then "" else " incomplete"))

/-- The line of a value. -/
def valueText (g : Graph) (v : ValueId) : Except Cause Text := do
  let d := g.definition v
  let e ← exprText g d.expr
  let line := if d.line = 0 then "" else "\t; line " ++ toString d.line
  .ok (Text.ofString (valueName v ++ " = ") ++ e ++ Text.ofString (line ++ "\n"))

/-! ## Blocks -/

/-- The line of a terminator. -/
def terminatorText (g : Graph) : Option Terminator → String
  | none => "<unterminated>\n"
  | some (.jump target) => "jump " ++ g.nameOf target ++ "\n"
  | some (.branch cond ifTrue ifFalse) =>
    "branch " ++ cond.text ++ ", " ++ g.nameOf ifTrue ++ ", " ++ g.nameOf ifFalse ++ "\n"
  | some (.ret value) => "ret " ++ value.text ++ "\n"
  | some .retVoid => "retvoid\n"

/-- The names of blocks, each after a space, or a dash for none. -/
def blockNames (g : Graph) (bs : List BlockId) : String :=
  if bs.isEmpty then " -" else String.join (bs.map fun b => " " ++ g.nameOf b)

/-- The first line of a block. -/
def headerText (g : Graph) (doms : Option Dominators) (b : BlockId) : String :=
  let dominators := match doms with
    | some d => "  doms:" ++ blockNames g (d.of b)
    | none => ""
  g.nameOf b ++ ":\t\t; preds:" ++ blockNames g (g.block b).preds ++ dominators ++ "\n"

/-- The lines of the values of a block. -/
def codeText (g : Graph) : List ValueId → Except Error Text
  | [] => .ok []
  | v :: vs =>
    match valueText g v with
    | .error cause => .error { value := some v, cause }
    | .ok line => do
      let rest ← codeText g vs
      .ok (Text.ofString "\t" ++ line ++ rest)

/-- A block: its header, its values and its terminator. -/
def blockText (g : Graph) (doms : Option Dominators) (b : BlockId) : Except Error Text := do
  let x := g.block b
  let code ← codeText g x.code
  .ok (Text.ofString (headerText g doms b) ++ code ++
    Text.ofString ("\t" ++ terminatorText g x.terminator))

/-! ## Graphs -/

/-- Blocks in a graph. -/
def blockTexts (g : Graph) (doms : Option Dominators) : List BlockId → Except Error (List Text)
  | [] => .ok []
  | b :: bs =>
    match blockText g doms b with
    | .error e => .error { e with block := some (g.offset b) }
    | .ok t => do
      let ts ← blockTexts g doms bs
      .ok (t :: ts)

/-- A graph: its blocks with empty lines between them. -/
def graphText (g : Graph) (doms : Option Dominators) : Except Error Text := do
  let blocks ← blockTexts g doms g.live
  .ok (joinWith "\n" blocks)

/-- What a dump may be asked of. -/
inductive Subject
  | graph
  | block (b : BlockId)
  | value (v : ValueId)
  /-- A thing of another kind, which has no dump. -/
  | other (kind : String)
  deriving DecidableEq, Repr

/-- The dump of a graph or of a part of it. -/
def text (g : Graph) (doms : Option Dominators) : Subject → Except Error Text
  | .graph => graphText g doms
  | .block b => blockText g doms b
  | .value v => (valueText g v).mapError fun cause => { cause }
  | .other kind => .error { cause := .unknownKind kind }

end StackLift.Dump
