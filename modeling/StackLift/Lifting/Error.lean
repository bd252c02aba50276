/-
# Why a function cannot be lifted
-/
import StackLift.Instruction
import StackLift.PhiCompletion

namespace StackLift

/-- A kind of parameter that cannot be lifted. -/
inductive SignatureError
  | defaults
  | varargs (name : String)
  | kwargs (name : String)
  deriving DecidableEq, Repr

/-- The reason in words. -/
def SignatureError.reason : SignatureError → String
  | .defaults => "default parameter values"
  | .varargs name => "variadic positional parameter *" ++ name
  | .kwargs name => "variadic keyword parameter **" ++ name

/-- What is wrong with the arguments of an instruction. -/
inductive StepError
  | constIndex (i : Int)
  | globalIndex (i : Int)
  | localIndex (i : Int)
  | comparison (arg : Int)
  | keywordNotConstant
  | keywordNotString
  deriving DecidableEq, Repr

/-- Why a function cannot be lifted. -/
inductive LiftError
  | alreadyLifted
  | signature (e : SignatureError)
  /-- The opcode of an instruction has no effect. -/
  | unsupported (i : Instruction)
  /-- An instruction cannot be stepped. -/
  | step (i : Instruction) (e : StepError)
  /-- The code of a block goes on where there is no instruction. -/
  | fallsOff (block offset : Int)
  | stack (e : StackError)
  deriving DecidableEq, Repr

/-- A comparison by its name, or by its number if it has none. -/
def comparisonText (arg : Int) : String :=
  match if arg < 0 then none else Opcode.comparisons[arg.toNat]? with
  | some name => "'" ++ name ++ "'"
  | none => "#" ++ toString arg

/-- The reason of an argument error in words. -/
def StepError.reason : StepError → String
  | .constIndex i => "const index " ++ toString i ++ " out of range"
  | .globalIndex i => "global name index " ++ toString i ++ " out of range"
  | .localIndex i => "local variable index " ++ toString i ++ " out of range"
  | .comparison arg => "comparison " ++ comparisonText arg
  | .keywordNotConstant => "keyword must be a constant"
  | .keywordNotString => "keyword must be a string constant"

/-- An instruction that is not supported. -/
def unsupportedMessage (i : Instruction) (detail : String) : String :=
  "unsupported bytecode " ++ i.op.name ++ " at offset " ++ toString i.offset ++ " (line " ++
    toString i.line ++ ")" ++ if detail.isEmpty then "" else ": " ++ detail

/-- An instruction with a bad argument. -/
def invalidArgumentMessage (i : Instruction) (reason : String) : String :=
  "invalid argument at offset " ++ toString i.offset ++ " (line " ++ toString i.line ++ "): " ++
    reason

/-- How an error of a step is worded. -/
def StepError.message (e : StepError) (i : Instruction) : String :=
  match e with
  | .comparison _ => unsupportedMessage i e.reason
  | .keywordNotConstant | .keywordNotString => invalidArgumentMessage i e.reason
  | _ => e.reason

/-- How an error is worded. -/
def LiftError.message : LiftError → String
  | .alreadyLifted => "already interpreted"
  | .signature e => "unsupported signature: " ++ e.reason
  | .unsupported i => unsupportedMessage i ""
  | .step i e =>
    "offset " ++ toString i.offset ++ " line " ++ toString i.line ++ ": " ++ e.message i
  | .fallsOff block offset =>
    "block " ++ blockName block ++ " falls off the end of the code at offset " ++ toString offset
  | .stack e => "complete phis: " ++ e.message

end StackLift
