import ProtoScript.Text.Literals

/-! # Moments

A moment is a date of the proleptic Gregorian calendar with a time of day. Nanoseconds above
those of one second stand for a leap second behind the last second of a minute.
-/

namespace ProtoScript

structure Moment where
  year : Int
  month : Nat
  day : Nat
  hour : Nat
  minute : Nat
  second : Nat
  nanosecond : Nat
  deriving DecidableEq, Repr, Inhabited

namespace Moment

def isLeapYear (year : Int) : Bool :=
  year % 4 == 0 && (year % 100 != 0 || year % 400 == 0)

def daysInMonth (year : Int) : Nat → Nat
  | 2 => if isLeapYear year then 29 else 28
  | 4 | 6 | 9 | 11 => 30
  | _ => 31

def isDate (m : Moment) : Bool :=
  -262143 ≤ m.year && m.year ≤ 262142 && 1 ≤ m.month && m.month ≤ 12 &&
    1 ≤ m.day && m.day ≤ daysInMonth m.year m.month

def isTime (m : Moment) : Bool :=
  m.hour ≤ 23 && m.minute ≤ 59 && m.second ≤ 59 &&
    (m.nanosecond < 1000000000 || (m.second == 59 && m.nanosecond < 2000000000))

/-- The moment with the given parts, from the year to the nanosecond. Parts left out are zero and
parts behind the nanosecond do not count. -/
def ofParts? (parts : List Int) : Option Moment :=
  if parts = [] ∨ (parts.take 7).tail.any (· < 0) then none
  else
    let part (i : Nat) : Nat := (parts.getD i 0).toNat
    let moment : Moment := ⟨parts.getD 0 0, part 1, part 2, part 3, part 4, part 5, part 6⟩
    if moment.isDate && moment.isTime then some moment else none

/-- A year has at least four digits, and a sign if it is negative or has more than four. -/
def renderYear (year : Int) : String :=
  if year < 0 then "-" ++ Decimal.padded 4 year.natAbs
  else if 9999 < year then "+" ++ Decimal.padded 4 year.natAbs
  else Decimal.padded 4 year.natAbs

def render (m : Moment) : String :=
  let second := if m.nanosecond < 1000000000 then m.second else m.second + 1
  renderYear m.year ++ "-" ++ Decimal.padded 2 m.month ++ "-" ++ Decimal.padded 2 m.day ++ " " ++
    Decimal.padded 2 m.hour ++ ":" ++ Decimal.padded 2 m.minute ++ ":" ++ Decimal.padded 2 second

end Moment

end ProtoScript
