/-
# Dates and times of day

The parts of a written date, a time of day and a time zone.  `Timestamp.isFull` accepts a date
with a time and a zone: `1979-05-27T07:32:00.5Z`.
-/

namespace StackLift.Timestamp

/-! ## Numbers -/

/-- Reads a number of exactly `n` decimal digits. -/
def readDigits (n : Nat) (cs : List Char) : Option (Nat × List Char) :=
  let ds := cs.take n
  if ds.length = n ∧ ds.all Char.isDigit then
    some (ds.foldl (fun v d => 10 * v + (d.toNat - '0'.toNat)) 0, cs.drop n)
  else none

/-- Reads a number of two digits after a given character, if it is in a range. -/
def readPart (mark : Char) (least most : Nat) : List Char → Option (Nat × List Char)
  | [] => none
  | c :: cs => do
    if c ≠ mark then none
    else
      let (n, cs) ← readDigits 2 cs
      if least ≤ n ∧ n ≤ most then some (n, cs) else none

/-! ## Dates -/

/-- Whether a year has a day more than others. -/
def isLeapYear (year : Nat) : Bool := year % 4 == 0 && (year % 100 != 0 || year % 400 == 0)

/-- How many days a month has. -/
def monthDays (year month : Nat) : Nat :=
  if month = 2 then if isLeapYear year then 29 else 28
  else if month = 4 ∨ month = 6 ∨ month = 9 ∨ month = 11 then 30
  else 31

/-- The characters after a date. -/
def afterDate? (cs : List Char) : Option (List Char) := do
  let (year, cs) ← readDigits 4 cs
  let (month, cs) ← readPart '-' 1 12 cs
  let (_, cs) ← readPart '-' 1 (monthDays year month) cs
  some cs

/-! ## Times of day -/

/-- The characters after an hour of the day in two digits. -/
def afterHour? (cs : List Char) : Option (List Char) := do
  let (hour, cs) ← readDigits 2 cs
  if hour ≤ 23 then some cs else none

/-- The characters after an hour of the day in two digits or one. -/
def afterShortHour? (cs : List Char) : Option (List Char) :=
  match readDigits 2 cs with
  | some _ => afterHour? cs
  | none => (readDigits 1 cs).map (·.2)

/-- The characters after the fraction of a second, if there is one. -/
def afterFraction : List Char → List Char
  | c :: d :: cs =>
    if (c = '.' ∨ c = ',') ∧ d.isDigit then cs.dropWhile Char.isDigit else c :: d :: cs
  | cs => cs

/-- The characters after minutes. -/
def afterMinutes? (cs : List Char) : Option (List Char) := (readPart ':' 0 59 cs).map (·.2)

/-- The characters after seconds and their fraction. -/
def afterSeconds? (cs : List Char) : Option (List Char) :=
  (readPart ':' 0 59 cs).map fun (_, cs) => afterFraction cs

/-! ## Time zones -/

/-- Whether characters are a time zone.  An offset of a whole day and a minute part of a whole
hour are let through. -/
def isZone : List Char → Bool
  | ['Z'] => true
  | c :: cs =>
    match readPart c 0 24 (c :: cs) with
    | some (_, cs) => (c == '+' || c == '-') && (readPart ':' 0 60 cs).any fun (_, cs) => cs.isEmpty
    | none => false
  | [] => false

/-- Whether characters are a date, a time of day with seconds, and a time zone. -/
def isFull (cs : List Char) : Bool :=
  match afterDate? cs with
  | some ('T' :: cs) => (afterShortHour? cs >>= afterMinutes? >>= afterSeconds?).any isZone
  | _ => false

end StackLift.Timestamp
