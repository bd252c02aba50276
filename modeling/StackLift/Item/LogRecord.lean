/-
# Items of a log record

Log records hold numbers, strings, lists and maps as binary items.  A negative number `v` is
written with the number `1 - v`.
-/
import StackLift.Item.Head

namespace StackLift.Item.LogRecord

/-- An integer. -/
def int (v : Int) : Text :=
  if v < 0 then head .negative (1 - v).toNat else head .unsigned v.toNat

/-- A string, by its bytes. -/
def text (t : Text) : Text := head .text t.length ++ t

/-- The beginning of a map with `n` keys. -/
def openMap (n : Nat) : Text := head .map n

/-- A key with an integer. -/
def keyInt (key : String) (v : Int) : Text := text key ++ int v

/-- A list whose length is not written, as its elements between two marks. -/
def openList (elements : List Text) : Text := firstByte .array 31 :: elements.flatten ++ [stop]

/-- Nothing. -/
def null : Text := [Item.null]

end StackLift.Item.LogRecord
