import ClassProgression.Decimal.Layout

namespace ClassProgression

inductive Json where
  | null
  | bool (value : Bool)
  | integer (value : Int64)
  | float (value : Float)
  | text (value : String)
  | list (items : List Json)
  | object (fields : List (String × Json))

namespace Json

def nat (n : Nat) : Json := .integer (Int64.ofNat n)

def texts (items : List String) : Json := .list (items.map .text)

-- Numbers keep a point or an exponent; what is no number is null.
def numerals : Decimal.Layout where
  tie := .toEven
  positionalFrom := some (-5)
  positionalBelow := some 16
  keepsPoint := true
  nan := "null"
  infinity := "null"
  negativeInfinity := "null"

end Json

end ClassProgression
