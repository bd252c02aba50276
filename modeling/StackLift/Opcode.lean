/-
# Opcodes

An opcode is a byte.  The table gives the opcodes that have a meaning, with their names and what
their argument has to do with jumping.
-/
import StackLift.Item.LogRecord

namespace StackLift

/-- An opcode, valid or not. -/
structure Opcode where
  number : UInt8
  deriving DecidableEq, Repr, Inhabited

/-- What the argument of an opcode says about a jump. -/
inductive JumpKind
  /-- Nothing. -/
  | none
  /-- The distance of the target from the next instruction. -/
  | relative
  /-- The offset of the target. -/
  | absolute
  deriving DecidableEq, Repr

namespace Opcode

/-! ## The table -/

/-- A row of the table of valid opcodes. -/
structure Entry where
  number : UInt8
  name : String
  jump : JumpKind
  deriving Repr

/-- The valid opcodes. -/
def table : List Entry :=
  [⟨0, "STOP_CODE", .none⟩,
   ⟨1, "POP_TOP", .none⟩,
   ⟨2, "ROT_TWO", .none⟩,
   ⟨3, "ROT_THREE", .none⟩,
   ⟨4, "DUP_TOP", .none⟩,
   ⟨9, "NOP", .none⟩,
   ⟨10, "UNARY_POSITIVE", .none⟩,
   ⟨11, "UNARY_NEGATIVE", .none⟩,
   ⟨12, "UNARY_NOT", .none⟩,
   ⟨15, "UNARY_INVERT", .none⟩,
   ⟨19, "BINARY_POWER", .none⟩,
   ⟨20, "BINARY_MULTIPLY", .none⟩,
   ⟨21, "BINARY_DIVIDE", .none⟩,
   ⟨22, "BINARY_MODULO", .none⟩,
   ⟨23, "BINARY_ADD", .none⟩,
   ⟨24, "BINARY_SUBTRACT", .none⟩,
   ⟨25, "BINARY_SUBSCR", .none⟩,
   ⟨26, "BINARY_FLOOR_DIVIDE", .none⟩,
   ⟨27, "BINARY_TRUE_DIVIDE", .none⟩,
   ⟨28, "INPLACE_FLOOR_DIVIDE", .none⟩,
   ⟨29, "INPLACE_TRUE_DIVIDE", .none⟩,
   ⟨55, "INPLACE_ADD", .none⟩,
   ⟨56, "INPLACE_SUBTRACT", .none⟩,
   ⟨57, "INPLACE_MULTIPLY", .none⟩,
   ⟨58, "INPLACE_DIVIDE", .none⟩,
   ⟨59, "INPLACE_MODULO", .none⟩,
   ⟨62, "BINARY_LSHIFT", .none⟩,
   ⟨63, "BINARY_RSHIFT", .none⟩,
   ⟨64, "BINARY_AND", .none⟩,
   ⟨65, "BINARY_XOR", .none⟩,
   ⟨66, "BINARY_OR", .none⟩,
   ⟨67, "INPLACE_POWER", .none⟩,
   ⟨68, "GET_ITER", .none⟩,
   ⟨75, "INPLACE_LSHIFT", .none⟩,
   ⟨76, "INPLACE_RSHIFT", .none⟩,
   ⟨77, "INPLACE_AND", .none⟩,
   ⟨78, "INPLACE_XOR", .none⟩,
   ⟨79, "INPLACE_OR", .none⟩,
   ⟨80, "BREAK_LOOP", .none⟩,
   ⟨83, "RETURN_VALUE", .none⟩,
   ⟨87, "POP_BLOCK", .none⟩,
   ⟨90, "STORE_NAME", .none⟩,
   ⟨93, "FOR_ITER", .relative⟩,
   ⟨97, "STORE_GLOBAL", .none⟩,
   ⟨100, "LOAD_CONST", .none⟩,
   ⟨101, "LOAD_NAME", .none⟩,
   ⟨102, "BUILD_TUPLE", .none⟩,
   ⟨106, "LOAD_ATTR", .none⟩,
   ⟨107, "COMPARE_OP", .none⟩,
   ⟨110, "JUMP_FORWARD", .relative⟩,
   ⟨111, "JUMP_IF_FALSE_OR_POP", .absolute⟩,
   ⟨112, "JUMP_IF_TRUE_OR_POP", .absolute⟩,
   ⟨113, "JUMP_ABSOLUTE", .absolute⟩,
   ⟨114, "POP_JUMP_IF_FALSE", .absolute⟩,
   ⟨115, "POP_JUMP_IF_TRUE", .absolute⟩,
   ⟨116, "LOAD_GLOBAL", .none⟩,
   ⟨120, "SETUP_LOOP", .relative⟩,
   ⟨124, "LOAD_FAST", .none⟩,
   ⟨125, "STORE_FAST", .none⟩,
   ⟨131, "CALL_FUNCTION", .none⟩,
   ⟨148, "JUMP_IF_FALSE", .relative⟩,
   ⟨149, "JUMP_IF_TRUE", .relative⟩]

/-- The row of an opcode. -/
def entry? (op : Opcode) : Option Entry := table.find? (·.number == op.number)

/-- The opcode with a name. -/
def ofName? (name : String) : Option Opcode :=
  (table.find? (·.name == name)).map fun e => ⟨e.number⟩

/-- Whether an opcode has a meaning. -/
def isValid (op : Opcode) : Bool := op.entry?.isSome

/-- The name of an opcode; one without a meaning is named by its number. -/
def name (op : Opcode) : String :=
  match op.entry? with
  | some e => e.name
  | none => "<" ++ toString op.number.toNat ++ ">"

/-! ## Arguments -/

/-- Whether an opcode carries an argument. -/
def hasArg (op : Opcode) : Bool := 90 ≤ op.number

/-- The length of an instruction: one byte, and two for the argument. -/
def size (op : Opcode) : Int := if op.hasArg then 3 else 1

/-- What the argument says about a jump. -/
def jump (op : Opcode) : JumpKind :=
  match op.entry? with
  | some e => e.jump
  | none => .none

/-- Whether an opcode jumps, or marks a place as a jump does. -/
def isJump (op : Opcode) : Bool := op.jump != .none

/-- An opcode in a log record, by its name. -/
def record (op : Opcode) : Text := Item.LogRecord.text op.name

theorem size_pos (op : Opcode) : 0 < op.size := by
  unfold size
  split <;> decide

/-! ## Opcodes with an argument that names something -/

/-- Pushes a constant. -/
def loadConst : Opcode := ⟨100⟩

/-- Compares two values. -/
def compareOp : Opcode := ⟨107⟩

/-- Pushes a global. -/
def loadGlobal : Opcode := ⟨116⟩

/-- Pushes a local variable. -/
def loadFast : Opcode := ⟨124⟩

/-- Stores into a local variable. -/
def storeFast : Opcode := ⟨125⟩

/-- The comparisons, by the argument that selects them. -/
def comparisons : List String :=
  ["<", "<=", "==", "!=", ">", ">=", "in", "not in", "is", "is not", "exception match", "BAD"]

end Opcode

end StackLift
