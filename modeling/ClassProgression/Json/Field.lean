import ClassProgression.Integer.Range
import ClassProgression.Json.Basic
import ClassProgression.NameMap.Basic

namespace ClassProgression.Json

def text? : Json → Option String
  | .text value => some value
  | _ => none

def listOf? (read : Json → Option α) : Json → Option (List α)
  | .list items => items.mapM read
  | _ => none

-- Every value has to be readable, also one that a later field of the same name replaces.
def fieldsOf? (read : Json → Option α) (fields : List (String × Json)) : Option (NameMap α) :=
  (fields.mapM fun field => (read field.2).map fun value => (field.1, value)).map NameMap.ofList

def mapOf? (read : Json → Option α) : Json → Option (NameMap α)
  | .object fields => fieldsOf? read fields
  | _ => none

def nullOr? (read : Json → Option α) : Json → Option (Option α)
  | .null => some none
  | value => (read value).map some

-- Nothing if the name is repeated; otherwise the field's value, if there is one.
def field? (name : String) (fields : List (String × Json)) : Option (Option Json) :=
  match fields.filter fun field => field.1 = name with
  | [] => some none
  | [only] => some (some only.2)
  | _ => none

def others (names : List String) (fields : List (String × Json)) : List (String × Json) :=
  fields.filter fun field => field.1 ∉ names

def orDefault (missing : α) (read : Json → Option α) : Option Json → Option α
  | none => some missing
  | some value => read value

def word32? : Json → Option UInt32
  | .integer value => Integer.unsigned32? value.toInt
  | _ => none

end ClassProgression.Json
