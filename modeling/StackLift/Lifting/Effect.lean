/-
# What opcodes do

The effect of an opcode on the stack and on the flow of control.  Opcodes without an effect
cannot be lifted.
-/
import StackLift.Graph.Basic
import StackLift.Opcode

namespace StackLift

/-! ## Operators, by the names under which they are called -/

namespace Operator

def pos : Operator := ⟨"pos"⟩
def neg : Operator := ⟨"neg"⟩
def invert : Operator := ⟨"invert"⟩
def not : Operator := ⟨"not"⟩
def add : Operator := ⟨"add"⟩
def sub : Operator := ⟨"sub"⟩
def mul : Operator := ⟨"mul"⟩
def floorDiv : Operator := ⟨"floordiv"⟩
def trueDiv : Operator := ⟨"truediv"⟩
def mod : Operator := ⟨"mod"⟩
def pow : Operator := ⟨"pow"⟩
def lshift : Operator := ⟨"lshift"⟩
def rshift : Operator := ⟨"rshift"⟩
def and : Operator := ⟨"and"⟩
def or : Operator := ⟨"or"⟩
def xor : Operator := ⟨"xor"⟩
def lt : Operator := ⟨"lt"⟩
def le : Operator := ⟨"le"⟩
def eq : Operator := ⟨"eq"⟩
def ne : Operator := ⟨"ne"⟩
def gt : Operator := ⟨"gt"⟩
def ge : Operator := ⟨"ge"⟩
/-- The iterator of a value. -/
def iter : Operator := ⟨"iter"⟩
/-- Whether an iterator has a next element. -/
def iterValid : Operator := ⟨"itervalid"⟩
/-- The next element of an iterator. -/
def iterNext : Operator := ⟨"iternext"⟩

/-- The comparisons that can be lifted, by the argument that selects them. -/
def comparisons : List Operator := [lt, le, eq, ne, gt, ge]

end Operator

/-- The effect of an instruction. -/
inductive Effect
  /-- Nothing happens. -/
  | nothing
  /-- Pushes the constant that the argument selects. -/
  | loadConst
  /-- Pushes the local variable that the argument selects. -/
  | loadLocal
  /-- Pushes the global that the argument selects. -/
  | loadGlobal
  /-- Stores the top into a local variable. -/
  | storeLocal
  /-- Replaces the top. -/
  | unary (o : Operator)
  /-- Replaces the two topmost values. -/
  | binary (o : Operator)
  /-- Compares the two topmost values as the argument tells. -/
  | compare
  /-- Calls a function with the arguments above it. -/
  | call
  /-- Goes into the body of a loop with the next element of an iterator, or leaves the loop. -/
  | forLoop
  /-- Jumps if the top, which is popped or left, has the given truth value. -/
  | branch (pops jumpsOn : Bool)
  /-- Jumps. -/
  | jump
  /-- Returns the top. -/
  | ret
  deriving DecidableEq, Repr

/-- The effect of an opcode that can be lifted. -/
def Opcode.effect? (op : Opcode) : Option Effect :=
  match op.number.toNat with
  | 10 => some (.unary .pos)
  | 11 => some (.unary .neg)
  | 12 => some (.unary .not)
  | 15 => some (.unary .invert)
  | 19 => some (.binary .pow)
  | 20 => some (.binary .mul)
  | 21 => some (.binary .floorDiv)
  | 22 => some (.binary .mod)
  | 23 => some (.binary .add)
  | 24 => some (.binary .sub)
  | 26 => some (.binary .floorDiv)
  | 27 => some (.binary .trueDiv)
  | 28 => some (.binary .floorDiv)
  | 29 => some (.binary .trueDiv)
  | 55 => some (.binary .add)
  | 56 => some (.binary .sub)
  | 57 => some (.binary .mul)
  | 58 => some (.binary .floorDiv)
  | 59 => some (.binary .mod)
  | 62 => some (.binary .lshift)
  | 63 => some (.binary .rshift)
  | 64 => some (.binary .and)
  | 65 => some (.binary .xor)
  | 66 => some (.binary .or)
  | 67 => some (.binary .pow)
  | 68 => some (.unary .iter)
  | 75 => some (.binary .lshift)
  | 76 => some (.binary .rshift)
  | 77 => some (.binary .and)
  | 78 => some (.binary .xor)
  | 79 => some (.binary .or)
  | 83 => some .ret
  | 87 => some .nothing
  | 93 => some .forLoop
  | 100 => some .loadConst
  | 107 => some .compare
  | 110 => some .jump
  | 111 => some (.branch false false)
  | 112 => some (.branch false true)
  | 113 => some .jump
  | 114 => some (.branch true false)
  | 115 => some (.branch true true)
  | 116 => some .loadGlobal
  | 120 => some .nothing
  | 124 => some .loadLocal
  | 125 => some .storeLocal
  | 131 => some .call
  | 148 => some (.branch false false)
  | 149 => some (.branch false true)
  | _ => none

/-- Whether an opcode can be lifted. -/
def Opcode.isSupported (op : Opcode) : Bool := op.effect?.isSome

end StackLift
