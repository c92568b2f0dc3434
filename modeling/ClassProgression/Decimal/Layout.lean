import ClassProgression.Decimal.Shortest

namespace ClassProgression.Decimal

structure Layout where
  tie : Tie
  -- Leading powers of ten from `positionalFrom` on and below `positionalBelow` are written without an exponent.
  positionalFrom : Option Int
  positionalBelow : Option Int
  -- Whether an integral number keeps `.0`.
  keepsPoint : Bool
  nan : String
  infinity : String
  negativeInfinity : String

def zeros (n : Nat) : List Char := List.replicate n '0'

def positional (keepsPoint : Bool) (d : Digits) : List Char :=
  if d.leading < 0 then '0' :: '.' :: (zeros ((-d.leading).toNat - 1) ++ d.digits)
  else
    let whole := d.leading.toNat + 1
    if d.digits.length ≤ whole then
      d.digits ++ zeros (whole - d.digits.length) ++ (if keepsPoint then ['.', '0'] else [])
    else d.digits.take whole ++ '.' :: d.digits.drop whole

def scientific (d : Digits) : List Char :=
  let fraction := d.digits.drop 1
  let mark := if d.leading < 0 then '-' else '+'
  d.digits.take 1 ++ (if fraction.isEmpty then [] else '.' :: fraction) ++
    'e' :: mark :: Nat.toDigits 10 d.leading.natAbs

def Layout.writesPositional (layout : Layout) (leading : Int) : Bool :=
  (match layout.positionalFrom with | none => true | some least => decide (least ≤ leading)) &&
  (match layout.positionalBelow with | none => true | some limit => decide (leading < limit))

def Layout.spell (layout : Layout) (d : Digits) : List Char :=
  if layout.writesPositional d.leading then positional layout.keepsPoint d else scientific d

def Layout.write (layout : Layout) (number : Float) : List Char :=
  match Shape.ofBits number.toBits with
  | .nan => layout.nan.toList
  | .infinite false => layout.infinity.toList
  | .infinite true => layout.negativeInfinity.toList
  | .finite negative significand exponent =>
      let magnitude :=
        if significand = 0 then layout.spell ⟨['0'], 0⟩
        else layout.spell (shortest layout.tie significand exponent)
      if negative then '-' :: magnitude else magnitude

end ClassProgression.Decimal
