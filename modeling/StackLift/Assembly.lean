/-
# Assembly

A source text has one statement on a line, cut at the first `#`:

* `.line 3` sets the source line of the instructions below;
* `name:` declares a label for the place where it stands;
* a mnemonic, followed by an operand if its opcode carries an argument, is an instruction.

An operand is a decimal number, or the name of a label declared anywhere in the text.
`Assembly.assemble` first gives every instruction its place, then resolves the operands.
-/
import StackLift.Instruction
import StackLift.Text.Blank
import StackLift.Text.Quoted

namespace StackLift.Assembly

/-! ## Errors -/

/-- What is wrong with a line. -/
inductive Cause
  | lineOperands
  | badLine (text : String) (error : Number.DecimalError)
  | duplicateLabel (name : String)
  | unknownMnemonic (name : String)
  | operandCount (op : Opcode)
  | undefinedLabel (name : String)
  | backwardJump (op : Opcode) (name : String)
  | labelRefused (op : Opcode)
  deriving DecidableEq, Repr

/-- A bad line, by its number in the text. -/
structure Error where
  line : Nat
  cause : Cause
  deriving DecidableEq, Repr

/-- How a cause is worded. -/
def Cause.message : Cause → String
  | .lineOperands => ".line expects one argument"
  | .badLine text error =>
    "strconv.Atoi: parsing " ++ Text.quoteString text ++ ": " ++ error.message
  | .duplicateLabel name => "duplicated label " ++ Text.quoteString name
  | .unknownMnemonic name => "unknown mnemonic " ++ Text.quoteString name
  | .operandCount op => op.name ++ ": wrong number of operands"
  | .undefinedLabel name => "undefined label " ++ Text.quoteString name
  | .backwardJump op name => op.name ++ " cannot jump backwards to " ++ Text.quoteString name
  | .labelRefused op => op.name ++ " does not take a label"

/-- How an error is worded. -/
def Error.message (e : Error) : String :=
  "asm line " ++ toString e.line ++ ": " ++ e.cause.message

/-! ## Statements -/

/-- What a line says. -/
inductive Statement
  | blank
  | line (n : Int)
  | label (name : String)
  | instruction (op : Opcode) (operand : Option String)
  deriving DecidableEq, Repr

/-- The name that a field declares as a label. -/
def labelName? (field : List Char) : Option String :=
  if field.getLast? = some ':' then some (String.ofList field.dropLast) else none

/-- The instruction of a mnemonic with the fields after it. -/
def instructionOf (mnemonic : List Char) (operands : List (List Char)) :
    Except Cause Statement :=
  match Opcode.ofName? (String.ofList mnemonic) with
  | none => .error (.unknownMnemonic (String.ofList mnemonic))
  | some op =>
    match op.hasArg, operands with
    | true, [operand] => .ok (.instruction op (some (String.ofList operand)))
    | false, [] => .ok (.instruction op none)
    | _, _ => .error (.operandCount op)

/-- The statement of the fields of a line. -/
def Statement.ofFields : List (List Char) → Except Cause Statement
  | [] => .ok .blank
  | first :: rest =>
    if first = ".line".toList then
      match rest with
      | [n] =>
        match Number.decimal n with
        | .ok n => .ok (.line n)
        | .error e => .error (.badLine (String.ofList n) e)
      | _ => .error .lineOperands
    else
      match labelName? first, rest with
      | some name, [] => .ok (.label name)
      | _, _ => instructionOf first rest

/-- The statement of a line, its comment left out. -/
def Statement.parse (line : List Char) : Except Cause Statement :=
  Statement.ofFields (Text.fields (line.takeWhile (· != '#')))

/-! ## Places -/

/-- The labels declared so far, with the offsets they stand for. -/
abbrev Labels := List (String × Int)

/-- An instruction that has its place, with the operand as it is written. -/
structure Placed where
  /-- The number of the line in the text. -/
  number : Nat
  op : Opcode
  operand : Option String
  /-- The source line. -/
  line : Int
  offset : Int
  deriving DecidableEq, Repr

/-- The offset after an instruction. -/
def Placed.next (p : Placed) : Int := p.offset + p.op.size

/-- Where the next instruction goes, and the labels declared above it. -/
structure Cursor where
  /-- The number of the next line in the text. -/
  number : Nat
  offset : Int
  /-- The source line of the next instruction. -/
  line : Int
  labels : Labels
  deriving Repr

/-- The cursor at the beginning of a text. -/
def Cursor.start (firstLine : Int) : Cursor := ⟨1, 0, firstLine, []⟩

/-- Moves the cursor over a statement, and gives the instruction its place if it is one. -/
def Cursor.advance (c : Cursor) : Statement → Except Cause (Cursor × Option Placed)
  | .blank => .ok ({ c with number := c.number + 1 }, none)
  | .line n => .ok ({ c with number := c.number + 1, line := n }, none)
  | .label name =>
    if (c.labels.lookup name).isSome then .error (.duplicateLabel name)
    else .ok ({ c with number := c.number + 1, labels := (name, c.offset) :: c.labels }, none)
  | .instruction op operand =>
    let p : Placed := ⟨c.number, op, operand, c.line, c.offset⟩
    .ok ({ c with number := c.number + 1, offset := p.next }, some p)

/-- The placed instructions of the lines below the cursor, and all labels. -/
def place (c : Cursor) : List (List Char) → Except Error (List Placed × Labels)
  | [] => .ok ([], c.labels)
  | line :: lines =>
    match Statement.parse line >>= c.advance with
    | .error cause => .error ⟨c.number, cause⟩
    | .ok (c', p) => do
      let (ps, labels) ← place c' lines
      .ok (p.toList ++ ps, labels)

/-! ## Operands -/

/-- The argument that an operand stands for. -/
def Placed.argument (p : Placed) (labels : Labels) (operand : String) : Except Cause Int :=
  match Number.decimal operand.toList with
  | .ok n => .ok n
  | .error _ =>
    match labels.lookup operand with
    | none => .error (.undefinedLabel operand)
    | some target =>
      match p.op.jump with
      | .absolute => .ok target
      | .relative =>
        if target < p.next then .error (.backwardJump p.op operand) else .ok (target - p.next)
      | .none => .error (.labelRefused p.op)

/-- A placed instruction with its operand resolved, zero if it has none. -/
def Placed.resolve (p : Placed) (labels : Labels) : Except Error Instruction :=
  match p.operand with
  | none => .ok ⟨p.offset, p.op, 0, p.line, p.next⟩
  | some operand =>
    match p.argument labels operand with
    | .ok arg => .ok ⟨p.offset, p.op, arg, p.line, p.next⟩
    | .error cause => .error ⟨p.number, cause⟩

/-- The instructions of a source text, the first of which stand on the given source line. -/
def assemble (source : String) (firstLine : Int) : Except Error (List Instruction) := do
  let (placed, labels) ← place (Cursor.start firstLine) (Text.lines source.toList)
  placed.mapM (·.resolve labels)

end StackLift.Assembly
