import ClassProgression.Cell.Basic
import ClassProgression.Level.Phrase

namespace ClassProgression

structure Row where
  level : Level
  features : List String := []
  columns : NameMap (Option Cell) := {}
deriving DecidableEq

namespace Row

def agrees (left right : Row) : Bool :=
  left.level == right.level && left.features == right.features && left.columns == right.columns

instance : BEq Row := ⟨agrees⟩

-- Nothing both for a null and for a column that the row lacks.
def cell? (row : Row) (column : String) : Option Cell := (row.columns.get? column).join

end Row

structure Table where
  rows : List Row := []
deriving DecidableEq

namespace Table

def agrees (left right : Table) : Bool := left.rows == right.rows

instance : BEq Table := ⟨agrees⟩

def row? (table : Table) (level : Level) : Option Row := table.rows.find? (·.level == level)

-- Read off the first row: the rows of a finished table agree on their columns.
def columnNames (table : Table) : List String :=
  match table.rows with
  | [] => []
  | first :: _ => first.columns.keys

def record (name : String) (level : Level) : List (String × List Level) → List (String × List Level)
  | [] => [(name, [level])]
  | (other, levels) :: rest =>
      if other = name then (other, levels ++ [level]) :: rest
      else (other, levels) :: record name level rest

def recordRow (gained : List (String × List Level)) (row : Row) : List (String × List Level) :=
  row.features.foldl (fun earlier name => record name row.level earlier) gained

-- The levels at which each feature is gained, features in order of first appearance.
def featureLevels (table : Table) : List (String × List Level) := table.rows.foldl recordRow []

end Table

end ClassProgression
