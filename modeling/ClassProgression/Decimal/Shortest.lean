namespace ClassProgression.Decimal

def twoTo (power : Nat) : Nat := Nat.pow 2 power

def tenTo (power : Nat) : Nat := Nat.pow 10 power

-- What the 64 bits of a number say. Zero is finite with significand zero.
inductive Shape where
  | nan
  | infinite (negative : Bool)
  | finite (negative : Bool) (significand : Nat) (exponent : Int)
deriving DecidableEq

def Shape.ofBits (bits : UInt64) : Shape :=
  let word := bits.toNat
  let negative := word / twoTo 63 == 1
  let biased : Nat := word / twoTo 52 % twoTo 11
  let fraction := word % twoTo 52
  if biased = 2047 then if fraction = 0 then .infinite negative else .nan
  else if biased = 0 then .finite negative fraction (-1074)
  else .finite negative (twoTo 52 + fraction) ((biased : Int) - 1075)

inductive Tie where
  | toEven
  | upward
deriving DecidableEq

-- The decimal `digits * 10 ^ power`, compared below in quarters of the binary unit: the number
-- stands at `4 * significand`, and half the way to its upper neighbour is two quarters.
structure Grid where
  decimalUnit : Nat
  quarterUnit : Nat

def Grid.at (exponent power : Int) : Grid where
  decimalUnit := tenTo power.toNat * twoTo (2 - exponent).toNat
  quarterUnit := twoTo (exponent - 2).toNat * tenTo (-power).toNat

-- Below the least significand of a binary range the neighbour is half as far away.
def lowerQuarters (significand : Nat) (exponent : Int) : Nat :=
  if significand = twoTo 52 ∧ exponent > -1074 then 1 else 2

-- The ends of the interval round to the number exactly when its significand is even.
def Denotes (significand : Nat) (exponent power : Int) (digits : Nat) : Prop :=
  let grid := Grid.at exponent power
  let candidate := digits * grid.decimalUnit
  let low := (4 * significand - lowerQuarters significand exponent) * grid.quarterUnit
  let high := (4 * significand + 2) * grid.quarterUnit
  if significand % 2 = 0 then low ≤ candidate ∧ candidate ≤ high else low < candidate ∧ candidate < high

instance (significand : Nat) (exponent power : Int) (digits : Nat) :
    Decidable (Denotes significand exponent power digits) := by
  unfold Denotes; exact inferInstance

-- The two decimals of the grid that enclose the number, and the nearer of them that denotes it.
def onGrid? (tie : Tie) (significand : Nat) (exponent power : Int) : Option Nat :=
  let grid := Grid.at exponent power
  let number := 4 * significand * grid.quarterUnit
  let below := number / grid.decimalUnit
  let remainder := number % grid.decimalUnit
  let lowFits : Bool := decide (Denotes significand exponent power below)
  let highFits : Bool := decide (Denotes significand exponent power (below + 1))
  let takeLow : Bool :=
    if 2 * remainder < grid.decimalUnit then true
    else if 2 * remainder > grid.decimalUnit then false
    else match tie with
      | .toEven => below % 2 == 0
      | .upward => false
  match lowFits, highFits with
  | true, true => some (if takeLow then below else below + 1)
  | true, false => some below
  | false, true => some (below + 1)
  | false, false => none

def digitCount (n : Nat) : Nat := (Nat.toDigits 10 n).length

-- The power of ten of the leading digit of `significand * 2 ^ exponent`. Ten to the power
-- `-exponent` outweighs two to it, so the scaled integer part is not zero.
def leadingPower (significand : Nat) (exponent : Int) : Int :=
  let scale := (-exponent).toNat
  let scaled := significand * tenTo scale * twoTo exponent.toNat / twoTo scale
  (digitCount scaled : Int) - 1 - scale

-- Tries one digit, two digits and so on. Seventeen digits always suffice.
def search (tie : Tie) (significand : Nat) (exponent leading : Int) : Nat → Nat → Option (Nat × Int)
  | 0, _ => none
  | left + 1, count =>
      let power := leading - count
      match onGrid? tie significand exponent power with
      | some digits => some (digits, power)
      | none => search tie significand exponent leading left (count + 1)

def stripZeros : List Char → List Char := fun digits =>
  (digits.reverse.dropWhile (· == '0')).reverse

-- Digits without trailing zeros, and the power of ten of the first of them.
structure Digits where
  digits : List Char
  leading : Int
deriving DecidableEq

def shortest (tie : Tie) (significand : Nat) (exponent : Int) : Digits :=
  match search tie significand exponent (leadingPower significand exponent) 17 0 with
  | some (found, power) =>
      let digits := Nat.toDigits 10 found
      ⟨stripZeros digits, power + digits.length - 1⟩
  | none => ⟨[], 0⟩

end ClassProgression.Decimal
