import ClassProgression.Decimal.Reading
import ClassProgression.Integer.Range
import ClassProgression.Json.Basic

namespace ClassProgression.Json

open Decimal

def isDigit (c : Char) : Bool := '0' ≤ c && c ≤ '9'

def splitDigits (input : List Char) : List Char × List Char := (input.takeWhile isDigit, input.dropWhile isDigit)

def natOfDigits (digits : List Char) : Nat := digits.foldl (fun n c => n * 10 + digitValue c) 0

structure Spelling where
  negative : Bool
  whole : List Char
  fraction : Option (List Char)
  exponent : Option (Bool × List Char)
deriving DecidableEq

-- Digits, without a zero in front of others.
def readWhole? (input : List Char) : Option (List Char × List Char) :=
  let parts := splitDigits input
  match parts.1 with
  | [] => none
  | ['0'] => some parts
  | '0' :: _ => none
  | _ => some parts

def readFraction? (input : List Char) : Option (Option (List Char) × List Char) :=
  match input with
  | '.' :: rest =>
      let parts := splitDigits rest
      if parts.1.isEmpty then none else some (some parts.1, parts.2)
  | _ => some (none, input)

def readSign (input : List Char) : Bool × List Char :=
  match input with
  | '-' :: rest => (true, rest)
  | '+' :: rest => (false, rest)
  | _ => (false, input)

def readExponent? (input : List Char) : Option (Option (Bool × List Char) × List Char) :=
  match input with
  | c :: rest =>
      if c = 'e' ∨ c = 'E' then
        let signed := readSign rest
        let parts := splitDigits signed.2
        if parts.1.isEmpty then none else some (some (signed.1, parts.1), parts.2)
      else some (none, input)
  | [] => some (none, [])

def readSpelling? (input : List Char) : Option (Spelling × List Char) := do
  let (negative, unsigned) := match input with
    | '-' :: rest => (true, rest)
    | _ => (false, input)
  let (whole, afterWhole) ← readWhole? unsigned
  let (fraction, afterFraction) ← readFraction? afterWhole
  let (exponent, rest) ← readExponent? afterFraction
  return (⟨negative, whole, fraction, exponent⟩, rest)

namespace Spelling

def signed (negative : Bool) (magnitude : Float) : Float := if negative then -magnitude else magnitude

-- The significand in 64 bits and the power of ten that goes with it, before the written exponent.
-- Whole digits beyond the significand count as a power, fraction digits beyond it are ignored.
def significand (spelling : Spelling) : Nat × Int :=
  let whole := gather 0 spelling.whole
  let fraction := spelling.fraction.getD []
  let all := gather whole.1 fraction
  (all.1, (whole.2.length : Int) - (fraction.length - all.2.length : Nat))

-- Exponents beyond 31 bits are as good as infinite.
def float? (spelling : Spelling) : Option Float :=
  let (significand, power) := spelling.significand
  let magnitude := match spelling.exponent with
    | none => scaled? significand power
    | some (negative, digits) =>
        let exponent := natOfDigits digits
        if (exponent : Int) ≤ Int32.maxValue.toInt then
          scaled? significand (if negative then power - exponent else power + exponent)
        else if significand = 0 ∨ negative then some 0
        else none
  magnitude.map (signed spelling.negative)

def toJson? (spelling : Spelling) : Option Json :=
  match spelling.fraction, spelling.exponent with
  | none, none =>
      let magnitude := natOfDigits spelling.whole
      let number : Int := if spelling.negative then -magnitude else magnitude
      let integer := if spelling.negative ∧ magnitude = 0 then none else Integer.signed64? number
      match integer with
      | some value => some (.integer value)
      | none => spelling.float?.map .float
  | _, _ => spelling.float?.map .float

end Spelling

def readNumber? (input : List Char) : Option (Json × List Char) := do
  let (spelling, rest) ← readSpelling? input
  let number ← spelling.toJson?
  return (number, rest)

end ClassProgression.Json
