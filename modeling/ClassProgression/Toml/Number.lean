import ClassProgression.Integer.Range
import ClassProgression.Toml.Basic
import ClassProgression.Toml.Lexical

namespace ClassProgression.Toml

-- A decimal integer, without a zero in front of other digits: whether it is negative, and its digits.
def decimal? (input : List Char) : Option ((Bool × List Char) × List Char) :=
  let (negative, unsigned) := sign input
  match unsigned with
  | '0' :: rest => some ((negative, ['0']), rest)
  | _ => (digits? isDigit unsigned).map fun parts => ((negative, parts.1), parts.2)

def fits? (number : Int) : Option Value :=
  (Integer.signed64? number).map .integer

def based? (base : Nat) (accepts : Char → Bool) (input : List Char) : Option (Value × List Char) := do
  let (digits, rest) ← digits? accepts input
  return (← fits? (natOfDigits base digits), rest)

def integer? (input : List Char) : Option (Value × List Char) :=
  match input with
  | '0' :: 'x' :: rest => based? 16 isHexDigit rest
  | '0' :: 'o' :: rest => based? 8 (fun c => '0' ≤ c && c ≤ '7') rest
  | '0' :: 'b' :: rest => based? 2 (fun c => c == '0' || c == '1') rest
  | _ => do
      let ((negative, digits), rest) ← decimal? input
      let magnitude : Int := natOfDigits 10 digits
      return (← fits? (if negative then -magnitude else magnitude), rest)

def fraction? (input : List Char) : Option (List Char × List Char) :=
  match input with
  | '.' :: rest => digits? isDigit rest
  | _ => none

def exponent? (input : List Char) : Option (Int × List Char) :=
  match input with
  | c :: rest =>
      if c = 'e' ∨ c = 'E' then do
        let (negative, unsigned) := sign rest
        let (digits, rest) ← digits? isDigit unsigned
        let magnitude : Int := natOfDigits 10 digits
        return (if negative then -magnitude else magnitude, rest)
      else none
  | [] => none

def isExponentMark (input : List Char) : Bool := input.head? == some 'e' || input.head? == some 'E'

def nearest (digits : List Char) (power : Int) : Float :=
  let significand := natOfDigits 10 digits
  let leading := (Nat.toDigits 10 significand).length + power
  if significand = 0 ∨ leading < -400 then 0
  else if leading > 400 then 1 / 0
  else Float.ofScientific significand (power < 0) power.natAbs

def float? (input : List Char) : Option (Value × List Char) := do
  let ((negative, whole), afterWhole) ← decimal? input
  let (fraction, power, rest) ←
    if isExponentMark afterWhole then do
      let (power, rest) ← exponent? afterWhole
      pure ([], power, rest)
    else do
      let (fraction, afterFraction) ← fraction? afterWhole
      if isExponentMark afterFraction then do
        let (power, rest) ← exponent? afterFraction
        pure (fraction, power, rest)
      else pure (fraction, 0, afterFraction)
  let magnitude := nearest (whole ++ fraction) (power - fraction.length)
  if magnitude.isInf && !negative then none
  else return (.float (if negative then -magnitude else magnitude), rest)

def specialFloat? (input : List Char) : Option (Value × List Char) :=
  let (negative, unsigned) := sign input
  match unsigned with
  | 'i' :: 'n' :: 'f' :: rest => some (.float (if negative then -1 / 0 else 1 / 0), rest)
  | 'n' :: 'a' :: 'n' :: rest => some (.float (0 / 0), rest)
  | _ => none

end ClassProgression.Toml
