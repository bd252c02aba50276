/-
# Instructions

An instruction stands at an offset and is linked to the instruction after it.  Offsets, arguments
and lines are 64-bit integers.
-/
import StackLift.Number.Integer
import StackLift.Opcode

namespace StackLift

/-- An instruction of a function. -/
structure Instruction where
  /-- Where the instruction stands. -/
  offset : Int
  op : Opcode
  /-- The argument, of no meaning for an opcode without one. -/
  arg : Int
  /-- The source line. -/
  line : Int
  /-- The offset of the instruction after this one. -/
  next : Int
  deriving DecidableEq, Repr, Inhabited

namespace Instruction

/-- Where a jump goes: to its argument, or for a relative jump that far behind the next
instruction. -/
def target (i : Instruction) : Int :=
  if i.op.jump = .relative then Number.wrap (i.next + i.arg) else i.arg

/-- Offset, name and argument. -/
def text (i : Instruction) : String :=
  let start := toString i.offset ++ " " ++ i.op.name
  if i.op.hasArg then start ++ " " ++ toString i.arg else start

/-- An instruction in a log record. -/
def record (i : Instruction) : Text :=
  open Item.LogRecord in
  openMap 4 ++ keyInt "off" i.offset ++ keyInt "op" i.op.number.toNat ++ keyInt "arg" i.arg ++
    keyInt "line" i.line

end Instruction

end StackLift
