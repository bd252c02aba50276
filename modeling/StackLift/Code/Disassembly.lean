/-
# Disassembly

One line for each instruction: the source line where it changes, a mark on jump targets, offset,
name and argument, and what the argument stands for.
-/
import StackLift.Code.Basic
import StackLift.Fault

namespace StackLift.Code

/-- A note in parentheses. -/
def note (t : Text) : Text := Text.ofString " (" ++ t ++ Text.ofString ")"

/-- The entry of a table that an argument selects, when the table is that long.  A negative
argument is out of range. -/
def entry (table : List α) (arg : Int) : Except Fault (Option α) :=
  if arg < 0 then .error .outOfRange else .ok table[arg.toNat]?

/-- What the argument of an instruction stands for. -/
def argumentNote (c : Code) (i : Instruction) : Except Fault Text :=
  let named (table : List String) : Except Fault Text := do
    match ← entry table i.arg with
    | some name => .ok (note name)
    | none => .ok []
  if i.op.isJump then .ok (note ("to " ++ toString i.target))
  else if i.op = .loadConst then do
    match ← entry c.consts i.arg with
    | some v => .ok (note v.text)
    | none => .ok []
  else if i.op = .loadFast ∨ i.op = .storeFast then named c.varnames
  else if i.op = .loadGlobal then named c.names
  else if i.op = .compareOp then named Opcode.comparisons
  else .ok []

/-- The line of an instruction, after one with the source line `previous`. -/
def instructionLine (c : Code) (previous : Int) (i : Instruction) : Except Fault Text := do
  let line := if i.line = previous then "     " else Text.padLeft 4 (toString i.line) ++ " "
  let mark := if c.isLabel i.offset then ">>" else "  "
  let place : Text :=
    line ++ mark ++ " " ++ Text.padLeft 4 (toString i.offset) ++ " " ++ Text.padRight 22 i.op.name
  if i.op.hasArg then
    let about ← c.argumentNote i
    .ok (place ++ Text.ofString (" " ++ toString i.arg) ++ about ++ Text.ofString "\n")
  else .ok (place ++ Text.ofString "\n")

/-- The lines of instructions, after one with the source line `previous`. -/
def disassembleFrom (c : Code) (previous : Int) : List Instruction → Except Fault Text
  | [] => .ok []
  | i :: is => do
    let line ← c.instructionLine previous i
    let rest ← c.disassembleFrom i.line is
    .ok (line ++ rest)

/-- The listing of a function. -/
def disassemble (c : Code) : Except Fault Text := c.disassembleFrom (-1) c.instructions

end StackLift.Code
