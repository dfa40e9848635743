import SplitPackages.Toml.Digits
import SplitPackages.Toml.Reader

/-!
# Dates and times

A `Datetime` is a date, a time, or both, and both may have an offset from
universal time. Dates exist in the calendar; a second may be a leap second.
Fractions of a second beyond the ninth place are dropped.
-/

namespace SplitPackages.Toml

structure Date where
  year : Nat
  month : Nat
  day : Nat
  deriving DecidableEq, Repr

structure Time where
  hour : Nat
  minute : Nat
  second : Nat
  nanosecond : Nat
  deriving DecidableEq, Repr

inductive Datetime where
  | date (date : Date)
  | time (time : Time)
  | unzoned (date : Date) (time : Time)
  /-- The offset is in minutes. -/
  | zoned (date : Date) (time : Time) (offset : Int)
  deriving DecidableEq, Repr

def isLeap (year : Nat) : Bool := year % 4 = 0 && (year % 100 ≠ 0 || year % 400 = 0)

def daysIn (year month : Nat) : Nat :=
  if month = 2 then if isLeap year then 29 else 28
  else if month ∈ [4, 6, 9, 11] then 30
  else 31

def date? : Reader Date := fun cs => do
  let (year, cs) ← fixed 4 cs
  let (month, cs) ← fixed 2 (← after '-' cs)
  let (day, cs) ← fixed 2 (← after '-' cs)
  if 1 ≤ month && month ≤ 12 && 1 ≤ day && day ≤ daysIn year month then
    return (⟨year, month, day⟩, cs)
  none

/-- An hour and a minute. -/
def clock? : Reader (Nat × Nat) := fun cs => do
  let (hour, cs) ← fixed 2 cs
  let (minute, cs) ← fixed 2 (← after ':' cs)
  if hour ≤ 23 && minute ≤ 59 then return ((hour, minute), cs)
  none

/-- Nanoseconds from the digits behind the point. -/
def nanoseconds (digits : List Char) : Option Nat :=
  ofDigits 10 ((digits ++ List.replicate 9 '0').take 9)

def time? : Reader Time := fun cs => do
  let ((hour, minute), cs) ← clock? cs
  let (second, cs) ← fixed 2 (← after ':' cs)
  if 60 < second then none
  match cs with
  | '.' :: cs =>
    let digits := cs.takeWhile (isDigit 10)
    if digits.isEmpty then none
    return (⟨hour, minute, second, ← nanoseconds digits⟩, cs.dropWhile (isDigit 10))
  | _ => return (⟨hour, minute, second, 0⟩, cs)

/-- An offset that ends the text. -/
def offset? : List Char → Option Int
  | ['Z'] | ['z'] => some 0
  | '+' :: cs => do
    let ((hour, minute), []) ← clock? cs | none
    return (60 * hour + minute : Nat)
  | '-' :: cs => do
    let ((hour, minute), []) ← clock? cs | none
    return -(60 * hour + minute : Nat)
  | _ => none

/-- The mark between a date and a time. -/
def isDatetimeMark (c : Char) : Bool := c = 'T' || c = 't' || c = ' '

def datetime? (cs : List Char) : Option Datetime :=
  match date? cs with
  | some (date, []) => some (.date date)
  | some (date, mark :: cs) => do
    if !isDatetimeMark mark then none
    match ← time? cs with
    | (time, []) => return .unzoned date time
    | (time, cs) => return .zoned date time (← offset? cs)
  | none => do
    let (time, []) ← time? cs | none
    return .time time

end SplitPackages.Toml
