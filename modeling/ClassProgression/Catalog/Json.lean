import ClassProgression.Catalog.Basic
import ClassProgression.Feature.Json
import ClassProgression.Json.Reader
import ClassProgression.Notice

namespace ClassProgression.Catalog

def bundle? : Json → Option (List Feature)
  | .list items => items.mapM Feature.ofJson?
  | .object fields => (Json.fieldsOf? Feature.ofJson? fields).map (·.values)
  | _ => none

def ofBundle (text : String) : Except Fault Catalog :=
  match (Json.read? text).bind bundle? with
  | some features => ofFeatures features
  | none => .error .bundleUnreadable

def noticesOf : Except Fault Catalog → List Notice
  | .ok catalog => [.registered catalog.size]
  | .error _ => []

end ClassProgression.Catalog
