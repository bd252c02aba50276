/-
# Functions as code

A `Code` is a function as it is to be lifted: its name and parameters, its tables of constants
and names, and its instructions, which are linked and whose jumps go to instructions.
-/
import Std.Data.HashMap
import StackLift.Constant
import StackLift.Instruction

namespace StackLift

/-- The declared parameters of a function. -/
structure Signature where
  args : List String
  /-- How many parameters have a default value. -/
  defaults : Int
  /-- The parameter that takes the other positional arguments, or empty. -/
  varargs : String
  /-- The parameter that takes the other keyword arguments, or empty. -/
  kwargs : String
  deriving DecidableEq, Repr, Inhabited

/-- A function: its parameters, tables and instructions. -/
structure Code where
  name : String
  signature : Signature
  consts : List Constant
  /-- The names of local variables. -/
  varnames : List String
  /-- The names of globals. -/
  names : List String
  instructions : List Instruction
  /-- The targets of jumps, in ascending order. -/
  labels : List Int
  deriving DecidableEq, Repr, Inhabited

namespace Code

/-! ## Instructions by offset -/

/-- The instruction at an offset, the last one if there are several. -/
def instructionAt? (instructions : List Instruction) (offset : Int) : Option Instruction :=
  instructions.foldl (fun found i => if i.offset = offset then some i else found) none

/-- The instruction at an offset. -/
def at? (c : Code) (offset : Int) : Option Instruction := instructionAt? c.instructions offset

/-- The instructions by their offsets. -/
def index (c : Code) : Std.HashMap Int Instruction :=
  c.instructions.foldl (fun m i => m.insert i.offset i) ∅

/-- Adding instructions to an index puts the last one at an offset there. -/
theorem getElem?_foldl_insert (is : List Instruction) (m : Std.HashMap Int Instruction)
    (offset : Int) :
    (is.foldl (fun m i => m.insert i.offset i) m)[offset]? =
      is.foldl (fun found i => if i.offset = offset then some i else found) m[offset]? := by
  induction is generalizing m with
  | nil => rfl
  | cons i is ih =>
    rw [List.foldl_cons, List.foldl_cons, ih, Std.HashMap.getElem?_insert]
    simp only [beq_iff_eq]

/-- The index finds the instruction at an offset. -/
@[simp]
theorem getElem?_index (c : Code) (offset : Int) : c.index[offset]? = c.at? offset := by
  rw [index, getElem?_foldl_insert, Std.HashMap.getElem?_empty]
  rfl

/-- Whether an instruction stands at an offset. -/
def has (c : Code) (offset : Int) : Bool := (c.at? offset).isSome

/-- The first place between two places of an ascending list at which a number is not below the given
one, found by halving. -/
def searchBetween (numbers : List Int) (n : Int) (low high : Nat) : Nat :=
  if low < high then
    let middle := (low + high) / 2
    if numbers.getD middle 0 < n then searchBetween numbers n (middle + 1) high
    else searchBetween numbers n low middle
  else low
termination_by high - low

/-- Whether some jump goes to an offset. -/
def isLabel (c : Code) (offset : Int) : Bool :=
  c.labels[searchBetween c.labels offset 0 c.labels.length]? == some offset

/-- The source line of the first instruction, zero without one. -/
def firstLine (c : Code) : Int :=
  match c.instructions with
  | i :: _ => i.line
  | [] => 0

/-! ## Construction -/

/-- Why instructions are no function. -/
inductive Error
  | notLinked (offset next : Int)
  | invalidOpcode (op : Opcode) (offset : Int)
  | badTarget (target : Int)
  deriving DecidableEq, Repr

/-- How an error is worded. -/
def Error.message : Error → String
  | .notLinked offset next =>
    "instruction at " ++ toString offset ++ " is not linked from previous one (next " ++
      toString next ++ ")"
  | .invalidOpcode op offset =>
    "invalid opcode " ++ toString op.number.toNat ++ " at " ++ toString offset
  | .badTarget target =>
    "branch target " ++ toString target ++ " is not an instruction offset"

/-- What is wrong with an instruction, the offset being known at which it should stand. -/
def linkError? (expected : Option Int) (i : Instruction) : Option Error :=
  match expected.filter (· ≠ i.offset) with
  | some next => some (.notLinked i.offset next)
  | none => if i.op.isValid then none else some (.invalidOpcode i.op i.offset)

/-- Checks that every instruction is linked from the one before it and has a valid opcode. -/
def checkLinks (expected : Option Int) : List Instruction → Except Error Unit
  | [] => .ok ()
  | i :: is =>
    match linkError? expected i with
    | some e => .error e
    | none => checkLinks (some i.next) is

/-- Adds a number to an ascending list that has it not yet. -/
def insertAscending (n : Int) : List Int → List Int
  | [] => [n]
  | m :: ms =>
    if n < m then n :: m :: ms
    else if n = m then m :: ms
    else m :: insertAscending n ms

/-- The targets of the jumps among instructions, in ascending order. -/
def targets (instructions : List Instruction) : List Int :=
  (instructions.filter (·.op.isJump)).foldr (fun i ts => insertAscending i.target ts) []

/-- The function with the given parts, if its instructions are linked and valid and its jumps go
to instructions. -/
def make (name : String) (signature : Signature) (consts : List Constant)
    (varnames names : List String) (instructions : List Instruction) : Except Error Code := do
  checkLinks none instructions
  let labels := targets instructions
  match labels.find? fun t => (instructionAt? instructions t).isNone with
  | some t => .error (.badTarget t)
  | none => .ok ⟨name, signature, consts, varnames, names, instructions, labels⟩

end Code

end StackLift
