/-
# Listings

A listing is the written form of a function: its tables in clear and its code as assembly.
`Listing.build` makes the function of it.
-/
import StackLift.Assembly
import StackLift.Code.Basic
import StackLift.Fault

namespace StackLift

/-- The written form of a function. -/
structure Listing where
  name : String := ""
  args : List String := []
  defaults : Int := 0
  varargs : String := ""
  kwargs : String := ""
  /-- The names of local variables; the parameters if they are not given. -/
  varnames : Option (List String) := none
  names : List String := []
  consts : List String := []
  /-- The source line of the first instruction, zero for the first line. -/
  firstLine : Int := 0
  code : String := ""
  deriving DecidableEq, Repr, Inhabited

namespace Listing

/-- Why a listing is no function. -/
inductive Error
  | constant (index : Nat) (cause : Constant.Error)
  | assembly (cause : Assembly.Error)
  | code (cause : Code.Error)
  deriving DecidableEq, Repr

/-- How an error is worded. -/
def Error.message : Error → String
  | .constant index cause => "const " ++ toString index ++ ": " ++ cause.message
  | .assembly cause => "assemble: " ++ cause.message
  | .code cause => cause.message

/-- The constants of a table, the first of which has the given index. -/
def parseConstants (index : Nat) : List String → Except Error (List Constant)
  | [] => .ok []
  | s :: ss =>
    match Constant.parse s with
    | .error cause => .error (.constant index cause)
    | .ok c => do
      let cs ← parseConstants (index + 1) ss
      .ok (c :: cs)

/-- The declared parameters. -/
def signature (l : Listing) : Signature := ⟨l.args, l.defaults, l.varargs, l.kwargs⟩

/-- The function that a listing describes. -/
def build (l : Listing) : Except Error Code := do
  let consts ← parseConstants 0 l.consts
  let firstLine := if l.firstLine = 0 then 1 else l.firstLine
  let instructions ← (Assembly.assemble l.code firstLine).mapError .assembly
  (Code.make l.name l.signature consts (l.varnames.getD l.args) l.names instructions).mapError .code

end Listing

end StackLift
