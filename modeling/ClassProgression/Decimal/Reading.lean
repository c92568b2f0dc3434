namespace ClassProgression.Decimal

def significandLimit : Nat := UInt64.size - 1

def digitValue (c : Char) : Nat := c.toNat - '0'.toNat

-- Takes up digits while the significand fits, and returns the digits left over.
def gather (significand : Nat) : List Char → Nat × List Char
  | [] => (significand, [])
  | c :: rest =>
      let grown := significand * 10 + digitValue c
      if grown ≤ significandLimit then gather grown rest else (significand, c :: rest)

def powerOfTen (power : Nat) : Float := Float.ofScientific 1 false power

-- Divides by powers of ten until the number is reached or nothing is left of it.
def shrink (number : Float) (power : Nat) : Float :=
  if power ≤ 308 then number / powerOfTen power
  else if number == 0 then number
  else shrink (number / powerOfTen 308) (power - 308)
termination_by power

def scaled? (significand : Nat) (power : Int) : Option Float :=
  let number := (UInt64.ofNat significand).toFloat
  match power with
  | .ofNat grow =>
      if grow ≤ 308 then
        let product := number * powerOfTen grow
        if product.isInf then none else some product
      else if significand = 0 then some number
      else none
  | .negSucc less => some (shrink number (less + 1))

end ClassProgression.Decimal
