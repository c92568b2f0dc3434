import ClassProgression.Cell.Json
import ClassProgression.Json.Reader
import ClassProgression.Json.Writer
import ClassProgression.Table.Basic

namespace ClassProgression

namespace Row

def slotToJson (slot : Option Cell) : Json :=
  match slot with
  | some cell => cell.toJson
  | none => .null

def toJson (row : Row) : Json :=
  .object ((levelColumn, Json.nat row.level.toNat) :: (featuresColumn, Json.texts row.features) ::
    row.columns.entries.map fun entry => (entry.1, slotToJson entry.2))

def ofJson? : Json → Option Row
  | .object fields => do
      let level ← (← Json.field? levelColumn fields).bind Json.word32?
      let features ← Json.orDefault [] (Json.listOf? Json.text?) (← Json.field? featuresColumn fields)
      let columns ← Json.fieldsOf? (Json.nullOr? Cell.ofJson?) (Json.others [levelColumn, featuresColumn] fields)
      return {level := level, features := features, columns := columns}
  | _ => none

end Row

namespace Table

def toJson (table : Table) : Json := .list (table.rows.map Row.toJson)

def ofJson? (value : Json) : Option Table := (Json.listOf? Row.ofJson? value).map fun rows => ⟨rows⟩

def read? (text : String) : Option Table := (Json.read? text).bind ofJson?

def compact (table : Table) : String := table.toJson.compact

def pretty (table : Table) : String := table.toJson.pretty

end Table

end ClassProgression
