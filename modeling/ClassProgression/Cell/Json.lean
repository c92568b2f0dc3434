import ClassProgression.Cell.Basic
import ClassProgression.Json.Field

namespace ClassProgression

namespace Scalar

def toJson : Scalar → Json
  | .integer value => .integer value
  | .float value => .float value
  | .text value => .text value

def ofJson? : Json → Option Scalar
  | .integer value => some (.integer value)
  | .float value => some (.float value)
  | .text value => some (.text value)
  | _ => none

end Scalar

namespace Group

def memberToJson (member : String × Option Scalar) : String × Json :=
  (member.1, match member.2 with | some value => value.toJson | none => .null)

def toJson (group : Group) : Json := .object (group.entries.map memberToJson)

def ofJson? : Json → Option Group := Json.mapOf? (Json.nullOr? Scalar.ofJson?)

end Group

namespace Cell

def toJson : Cell → Json
  | .scalar value => value.toJson
  | .list items => Json.texts items
  | .group members => Group.toJson members

def ofJson? : Json → Option Cell
  | .list items => (Json.listOf? Json.text? (.list items)).map .list
  | .object fields => (Group.ofJson? (.object fields)).map .group
  | value => (Scalar.ofJson? value).map .scalar

end Cell

end ClassProgression
