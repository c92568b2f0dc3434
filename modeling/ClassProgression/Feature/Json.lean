import ClassProgression.Cell.Json
import ClassProgression.Feature.Basic
import ClassProgression.Json.Skip

namespace ClassProgression

namespace FragmentRow

-- A cell that bears the level's own name stands at its sorted place, after the level.
def toJson (row : FragmentRow) : Json :=
  .object ((levelColumn, Json.nat row.level.toNat) :: row.cells.entries.map fun entry => (entry.1, entry.2.toJson))

def ofJson? : Json → Option FragmentRow
  | .object fields => do
      let level ← (← Json.field? levelColumn fields).bind Json.word32?
      let cells ← Json.fieldsOf? Cell.ofJson? (Json.others [levelColumn] fields)
      return {level := level, cells := cells}
  | _ => none

end FragmentRow

def optionalMap (name : String) (write : α → Json) (m : NameMap α) : List (String × Json) :=
  if m.isEmpty then [] else [(name, .object (m.entries.map fun entry => (entry.1, write entry.2)))]

def optionalTexts (name : String) (items : List String) : List (String × Json) :=
  if items.isEmpty then [] else [(name, Json.texts items)]

namespace Binding

def toJson (binding : Binding) : Json :=
  .object
    ((match binding.progression with
      | some rows => [("progression", .list (rows.map FragmentRow.toJson))]
      | none => []) ++
    optionalMap "variables" .text binding.terms ++
    optionalTexts "children" binding.children)

def ofParts? (progression terms children : Option Json) : Option Binding := do
  let progression ← Json.orDefault none (Json.nullOr? (Json.listOf? FragmentRow.ofJson?)) progression
  let terms ← Json.orDefault {} (Json.mapOf? Json.text?) terms
  let children ← Json.orDefault [] (Json.listOf? Json.text?) children
  return {progression := progression, terms := terms, children := children}

def ofJson? : Json → Option Binding
  | .object fields => do
      ofParts? (← Json.field? "progression" fields) (← Json.field? "variables" fields) (← Json.field? "children" fields)
  | .list items => if items.length ≤ 3 then ofParts? items[0]? items[1]? items[2]? else none
  | _ => none

def fieldNames : List String := ["progression", "variables", "children"]

-- A binding in a text of its own, whose unknown fields are passed over.
def read? (text : String) : Option Binding := (Json.readRecord? fieldNames text).bind ofJson?

end Binding

namespace Feature

def toJson (feature : Feature) : Json :=
  .object
    (("slug", .text feature.slug) :: ("template", .text feature.template) ::
    (optionalMap "classes" Binding.toJson feature.classes ++ optionalTexts "children" feature.children))

def ofParts? (slug template classes children : Option Json) : Option Feature := do
  let slug ← slug.bind Json.text?
  let template ← Json.orDefault "" Json.text? template
  let classes ← Json.orDefault {} (Json.mapOf? Binding.ofJson?) classes
  let children ← Json.orDefault [] (Json.listOf? Json.text?) children
  return {slug := slug, template := template, classes := classes, children := children}

def ofJson? : Json → Option Feature
  | .object fields => do
      ofParts? (← Json.field? "slug" fields) (← Json.field? "template" fields)
        (← Json.field? "classes" fields) (← Json.field? "children" fields)
  | .list items => if items.length ≤ 4 then ofParts? items[0]? items[1]? items[2]? items[3]? else none
  | _ => none

def fieldNames : List String := ["slug", "template", "classes", "children"]

def read? (text : String) : Option Feature := (Json.readRecord? fieldNames text).bind ofJson?

end Feature

end ClassProgression
