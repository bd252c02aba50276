/-
# Dates and times of documents

A date is written `1979-05-27`, a time of day `07:32` or `07:32:00.5`.  The two may stand
together, with a `T` or a space between them, and then have a time zone: `Z` or an offset.
-/
import StackLift.Timestamp
import StackLift.Toml.Basic

namespace StackLift.Toml.Time

open Timestamp

/-- The characters after a time of day.  Seconds may be left out. -/
def afterClock? (cs : List Char) : Option (List Char) := do
  let cs ← afterHour? cs >>= afterMinutes?
  if cs.head? = some ':' then afterSeconds? cs else some cs

/-- Whether characters after a time of day end a date with a time. -/
def endsTime (cs : List Char) : Bool := cs.isEmpty || isZone cs

/-- Whether characters are a date, a time of day, or both. -/
def isTime (cs : List Char) : Bool :=
  match afterDate? cs with
  | some [] => true
  | some ('T' :: cs) => (afterClock? cs).any endsTime
  | _ => (afterClock? cs).any List.isEmpty

/-- The character that stands for another way to write it. -/
def normalChar (c : Char) : Char :=
  if c = 'z' then 'Z' else if c = 't' ∨ c = ' ' then 'T' else c

/-- Whether a character may stand in a date or a time. -/
def isTimeChar (c : Char) : Bool := c.isDigit || "-:Tt .Zz+".toList.contains c

/-- Leaves out spaces at the end. -/
def dropGapRight (cs : List Char) : List Char := (cs.reverse.dropWhile isGap).reverse

/-- Reads a date, a time of day, or both. -/
def read : Reader Written := fun cs =>
  let word := dropGapRight (cs.takeWhile isTimeChar)
  if isTime (word.map normalChar) then
    some (.time (String.ofList word), cs.dropWhile isTimeChar)
  else none

end StackLift.Toml.Time
