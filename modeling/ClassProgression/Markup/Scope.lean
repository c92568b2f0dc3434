import ClassProgression.Feature.Basic

namespace ClassProgression.Markup

structure Scope where
  className : String
  levels : List Level := []
  terms : NameMap String := {}
  ascending : levels.Pairwise (· ≤ ·) := by exact List.Pairwise.nil

namespace Scope

def ofBinding (className : String) (binding : Binding) : Scope where
  className := className
  levels := binding.levels
  terms := binding.terms
  ascending := Level.sorted_ascending _

-- A class without a binding is described without levels and terms.
def ofFeature (className : String) (feature : Feature) (slug : String) : Scope :=
  match feature.binding? slug with
  | some binding => ofBinding className binding
  | none => {className := className}

def withLevels (scope : Scope) (levels : List Level) : Scope :=
  {scope with levels := Level.sorted levels, ascending := Level.sorted_ascending levels}

def withTerm (scope : Scope) (name value : String) : Scope :=
  {scope with terms := scope.terms.insert name value}

end Scope

end ClassProgression.Markup
