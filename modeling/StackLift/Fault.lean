/-
# Faults

A fault is not an error of the input: it says that an operation was used outside of what it is
made for.
-/

namespace StackLift

/-- What broke a rule of the data it was applied to.  Blocks are named by their offsets and
values by their numbers. -/
inductive Inconsistency
  | alreadyTerminated (block : Int) (terminator : String)
  | removeConnected (block : Int) (preds succs : List Int)
  | removeForeign (block : Int)
  | duplicateIncoming (block : Int)
  | bodyBeforeHeader (body header : Int)
  | incompletePhi (phi : Nat) (block : Int)
  | incomingCount (phi : Nat) (block : Int) (incomings preds : Nat)
  deriving DecidableEq, Repr

/-- The name of the block at an offset. -/
def blockName (offset : Int) : String := "b" ++ toString offset

/-- The name of a value. -/
def valueName (id : Nat) : String := "%" ++ toString id

/-- Names in brackets. -/
def nameList (names : List String) : String := "[" ++ " ".intercalate names ++ "]"

/-- How an inconsistency is worded. -/
def Inconsistency.message : Inconsistency → String
  | .alreadyTerminated block terminator =>
    "block " ++ blockName block ++ " is already terminated with " ++ terminator
  | .removeConnected block preds succs =>
    "remove connected block " ++ blockName block ++ " (preds " ++
      nameList (preds.map blockName) ++ ", succs " ++ nameList (succs.map blockName) ++ ")"
  | .removeForeign block => "remove foreign block " ++ blockName block
  | .duplicateIncoming block =>
    "duplicated incoming block " ++ blockName block ++ " for phi"
  | .bodyBeforeHeader body header =>
    "loop body " ++ blockName body ++ " is interpreted before its header " ++ blockName header
  | .incompletePhi phi block =>
    "phi " ++ valueName phi ++ " in " ++ blockName block ++ " is incomplete"
  | .incomingCount phi block incomings preds =>
    "phi " ++ valueName phi ++ " in " ++ blockName block ++ " has " ++ toString incomings ++
      " incomings for " ++ toString preds ++ " preds"

/-- How an operation was misused. -/
inductive Fault
  /-- A rule of the graph is broken. -/
  | inconsistent (i : Inconsistency)
  /-- Two sets do not start at the same key. -/
  | differentBases
  /-- An index is outside its list, or a value that is needed is missing. -/
  | outOfRange
  deriving DecidableEq, Repr

/-- Why an operation stopped before its end. -/
inductive Stop (ε : Type)
  /-- The input is at fault. -/
  | error (e : ε)
  /-- An operation was misused. -/
  | fault (f : Fault)
  /-- It would have gone on for ever. -/
  | endless
  deriving DecidableEq, Repr

end StackLift
