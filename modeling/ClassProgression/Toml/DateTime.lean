import ClassProgression.Toml.Basic
import ClassProgression.Toml.Lexical

namespace ClassProgression.Toml

def fixedDigits? (count : Nat) (input : List Char) : Option (Nat × List Char) :=
  let digits := input.take count
  if digits.length = count ∧ digits.all isDigit then some (natOfDigits 10 digits, input.drop count) else none

def bounded? (count low high : Nat) (input : List Char) : Option (Nat × List Char) := do
  let (number, rest) ← fixedDigits? count input
  if low ≤ number ∧ number ≤ high then some (number, rest) else none

def mark? (c : Char) (input : List Char) : Option (List Char) :=
  match input with
  | d :: rest => if d = c then some rest else none
  | [] => none

def isLeapYear (year : Nat) : Bool := year % 4 == 0 && (year % 100 != 0 || year % 400 == 0)

def daysIn (year month : Nat) : Nat :=
  if month = 2 then (if isLeapYear year then 29 else 28)
  else if month = 4 ∨ month = 6 ∨ month = 9 ∨ month = 11 then 30
  else 31

def date? (input : List Char) : Option (List Char) := do
  let (year, rest) ← fixedDigits? 4 input
  let rest ← mark? '-' rest
  let (month, rest) ← bounded? 2 1 12 rest
  let rest ← mark? '-' rest
  let (_, rest) ← bounded? 2 1 (daysIn year month) rest
  return rest

def hourMinute? (input : List Char) : Option (List Char) := do
  let (_, rest) ← bounded? 2 0 23 input
  let rest ← mark? ':' rest
  let (_, rest) ← bounded? 2 0 59 rest
  return rest

-- A sixtieth second is a leap second.
def time? (input : List Char) : Option (List Char) := do
  let rest ← hourMinute? input
  let rest ← mark? ':' rest
  let (_, rest) ← bounded? 2 0 60 rest
  match rest with
  | '.' :: c :: more => if isDigit c then some (more.dropWhile isDigit) else some rest
  | _ => some rest

def offset? (input : List Char) : Option (List Char) :=
  match input with
  | c :: rest =>
      if c = 'Z' ∨ c = 'z' then some rest
      else if c = '+' ∨ c = '-' then hourMinute? rest
      else some input
  | [] => some []

def timeOfDate? (input : List Char) : Option (List Char) :=
  match input with
  | c :: rest => if c = 'T' ∨ c = 't' ∨ c = ' ' then time? rest else none
  | [] => none

def dateTime? (input : List Char) : Option (Value × List Char) := do
  let rest ←
    match date? input with
    | some afterDate =>
        match timeOfDate? afterDate with
        | some afterTime => offset? afterTime
        | none => some afterDate
    | none => time? input
  return (.dateTime (input.take (input.length - rest.length)), rest)

end ClassProgression.Toml
