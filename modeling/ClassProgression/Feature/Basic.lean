import ClassProgression.Cell.Basic
import ClassProgression.Level.Phrase

namespace ClassProgression

structure FragmentRow where
  level : Level
  cells : NameMap Cell := {}
deriving DecidableEq

-- An absent progression takes no part in the class table; an empty one does, with no rows.
structure Binding where
  progression : Option (List FragmentRow) := none
  terms : NameMap String := {}
  children : List String := []
deriving DecidableEq

structure Feature where
  slug : String
  template : String := ""
  classes : NameMap Binding := {}
  children : List String := []
deriving DecidableEq

def Binding.levels (binding : Binding) : List Level :=
  Level.sorted ((binding.progression.getD []).map (·.level))

namespace Feature

def binding? (feature : Feature) (className : String) : Option Binding := feature.classes.get? className

def progression? (feature : Feature) (className : String) : Option (List FragmentRow) :=
  (feature.binding? className).bind (·.progression)

-- A binding's own list of children wins over the feature's unless it is empty.
def childrenFor (feature : Feature) (className : String) : List String :=
  match feature.binding? className with
  | some binding => if binding.children.isEmpty then feature.children else binding.children
  | none => feature.children

end Feature

end ClassProgression
