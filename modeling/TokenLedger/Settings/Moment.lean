/-!
# Dates and times in settings documents

A date, a time of day, or both, the latter perhaps with how far its clock is
ahead of UTC. Every field has a fixed count of digits, and a date has to stand
in the calendar.
-/

set_option autoImplicit false

namespace TokenLedger.Settings

structure Date where
  year : Nat
  month : Nat
  day : Nat
  deriving DecidableEq, Repr

structure Clock where
  hour : Nat
  minute : Nat
  /-- Up to sixty: a minute may end with a leap second. -/
  second : Nat
  nanosecond : Nat
  deriving DecidableEq, Repr

inductive Moment where
  | date (d : Date)
  | clock (t : Clock)
  /-- A date and a time; `ahead` counts the minutes by which the clock leads UTC. -/
  | both (d : Date) (t : Clock) (ahead : Option Int)
  deriving DecidableEq, Repr

namespace Moment

def skip? (c : Char) : List Char → Option (List Char)
  | x :: cs => if x = c then some cs else none
  | [] => none

def field? (width low high : Nat) (cs : List Char) : Option (Nat × List Char) :=
  let ds := cs.take width
  let n := Nat.ofDigitChars 10 ds 0
  if ds.length = width ∧ ds.all Char.isDigit ∧ low ≤ n ∧ n ≤ high then some (n, cs.drop width)
  else none

def isLeap (year : Nat) : Bool := year % 4 == 0 && (year % 100 != 0 || year % 400 == 0)

def daysIn (year month : Nat) : Nat :=
  if month = 2 then if isLeap year then 29 else 28
  else if month = 4 ∨ month = 6 ∨ month = 9 ∨ month = 11 then 30
  else 31

def date? (cs : List Char) : Option (Date × List Char) := do
  let (year, cs) ← field? 4 0 9999 cs
  let (month, cs) ← field? 2 1 12 (← skip? '-' cs)
  let (day, cs) ← field? 2 1 (daysIn year month) (← skip? '-' cs)
  return (⟨year, month, day⟩, cs)

def places : List Char → Nat × List Char
  | '.' :: cs =>
    match cs.takeWhile Char.isDigit with
    | [] => (0, '.' :: cs)
    | ds => (Nat.ofDigitChars 10 ((ds ++ List.replicate 9 '0').take 9) 0, cs.dropWhile Char.isDigit)
  | cs => (0, cs)

def clock? (cs : List Char) : Option (Clock × List Char) := do
  let (hour, cs) ← field? 2 0 23 cs
  let (minute, cs) ← field? 2 0 59 (← skip? ':' cs)
  let (second, cs) ← field? 2 0 60 (← skip? ':' cs)
  let (nanosecond, cs) := places cs
  return (⟨hour, minute, second, nanosecond⟩, cs)

def distance? (cs : List Char) : Option (Nat × List Char) := do
  let (hours, cs) ← field? 2 0 23 cs
  let (minutes, cs) ← field? 2 0 59 (← skip? ':' cs)
  return (60 * hours + minutes, cs)

def ahead : List Char → Option Int × List Char
  | 'Z' :: cs => (some 0, cs)
  | 'z' :: cs => (some 0, cs)
  | '+' :: cs =>
    match distance? cs with
    | some (n, rest) => (some n, rest)
    | none => (none, '+' :: cs)
  | '-' :: cs =>
    match distance? cs with
    | some (n, rest) => (some (-n), rest)
    | none => (none, '-' :: cs)
  | cs => (none, cs)

def clockAfterDate? : List Char → Option (Clock × List Char)
  | c :: cs => if c = 'T' ∨ c = 't' ∨ c = ' ' then clock? cs else none
  | [] => none

def read? (cs : List Char) : Option (Moment × List Char) :=
  match date? cs with
  | none => (fun (t, rest) => (.clock t, rest)) <$> clock? cs
  | some (d, rest) =>
    match clockAfterDate? rest with
    | none => some (.date d, rest)
    | some (t, rest) =>
      let (distance, rest) := ahead rest
      some (.both d t distance, rest)

end Moment

end TokenLedger.Settings
