/-
# The hand-off form

The form in which a finished graph is handed to the next stage: blocks are named by their offsets
and values by their numbers, and nothing points anywhere.
-/
import StackLift.Item.Datum

namespace StackLift.Handoff

/-- An argument passed by name. -/
structure Keyword where
  name : Text := []
  value : Int := 0
  deriving DecidableEq, Repr, Inhabited

/-- The value that flows in from a block. -/
structure Incoming where
  block : Int := 0
  value : Int := 0
  deriving DecidableEq, Repr, Inhabited

/-- A value.  Which of the fields have a meaning depends on its kind. -/
structure Inst where
  id : Int := 0
  line : Int := 0
  kind : String := ""
  /-- The position of an argument. -/
  num : Int := 0
  name : String := ""
  const : Datum := .null
  /-- What is stored. -/
  value : Int := 0
  /-- The operator that is called. -/
  callee : String := ""
  /-- The value that is called. -/
  calleeId : Int := 0
  args : List Int := []
  keywords : List Keyword := []
  slot : Int := 0
  incomings : List Incoming := []
  deriving Repr, Inhabited

/-- How a block is left. -/
structure Term where
  kind : String := ""
  /-- The condition, or what is returned. -/
  value : Int := 0
  targets : List Int := []
  deriving DecidableEq, Repr, Inhabited

/-- A block. -/
structure Block where
  offset : Int := 0
  preds : List Int := []
  succs : List Int := []
  insts : List Inst := []
  term : Term := {}
  deriving Repr, Inhabited

/-- A function.  Here as in all parts a list without elements is the same as no list. -/
structure Function where
  name : String := ""
  args : List String := []
  blocks : List Block := []
  deriving Repr, Inhabited

end StackLift.Handoff
