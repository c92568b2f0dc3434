import ClassProgression.Decimal.Layout
import ClassProgression.Integer.Range
import ClassProgression.NameMap.Basic

namespace ClassProgression

inductive Scalar where
  | integer (value : Int64)
  | float (value : Float)
  | text (value : String)
deriving DecidableEq

namespace Scalar

-- Agreement of values: an integer never agrees with a float, and floats are compared as numbers,
-- so the two zeros agree and a number that is none agrees with nothing.
def agrees : Scalar → Scalar → Bool
  | .integer left, .integer right => left == right
  | .float left, .float right => left == right
  | .text left, .text right => left == right
  | _, _ => false

instance : BEq Scalar := ⟨agrees⟩

def integerSum? (left right : Int64) : Option Int64 := Integer.signed64? (left.toInt + right.toInt)

-- Numbers add up; a float on either side makes the sum a float. Text has no sum.
def add? : Scalar → Scalar → Option Scalar
  | .integer left, .integer right => (integerSum? left right).map .integer
  | .integer left, .float right => some (.float (left.toFloat + right))
  | .float left, .integer right => some (.float (left + right.toFloat))
  | .float left, .float right => some (.float (left + right))
  | _, _ => none

-- Shown numbers never have an exponent nor a superfluous point.
def shown : Decimal.Layout where
  tie := .upward
  positionalFrom := none
  positionalBelow := none
  keepsPoint := false
  nan := "NaN"
  infinity := "inf"
  negativeInfinity := "-inf"

def display : Scalar → String
  | .integer value => Int.repr value.toInt
  | .float value => String.ofList (shown.write value)
  | .text value => value

end Scalar

-- Sub-columns by name; a sub-column without a value is `none`.
abbrev Group := NameMap (Option Scalar)

inductive Cell where
  | scalar (value : Scalar)
  | list (items : List String)
  | group (members : Group)
deriving DecidableEq

namespace Cell

def agrees : Cell → Cell → Bool
  | .scalar left, .scalar right => left == right
  | .list left, .list right => left == right
  | .group left, .group right => left == right
  | _, _ => false

instance : BEq Cell := ⟨agrees⟩

def displayMember (member : String × Option Scalar) : String :=
  member.1 ++ ": " ++ (match member.2 with | some value => value.display | none => "null")

def display : Cell → String
  | .scalar value => value.display
  | .list items => "[" ++ ", ".intercalate items ++ "]"
  | .group members => "\x7b" ++ ", ".intercalate (members.entries.map displayMember) ++ "\x7d"

end Cell

-- Column names with a meaning of their own: a row's level, and two ways to name what is gained there.
def levelColumn : String := "Level"
def featureColumn : String := "Feature"
def featuresColumn : String := "Features"

end ClassProgression
