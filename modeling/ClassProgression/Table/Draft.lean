import ClassProgression.Feature.Basic
import ClassProgression.Notice
import ClassProgression.Table.Alignment

namespace ClassProgression

-- How many rows the table has, and how far fragments are moved up.
structure Extent where
  maxLevel : UInt32 := Level.defaultHighest
  offset : UInt32 := 0
deriving DecidableEq

def Extent.landing? (extent : Extent) (level : Level) : Option Level :=
  let shifted := level.toNat + extent.offset.toNat
  if 1 ≤ shifted ∧ shifted ≤ extent.maxLevel.toNat then some (UInt32.ofNat shifted) else none

-- One cell of a fragment on its way into the draft, or one row that lands outside.
inductive Step where
  | dropped (level : Level)
  | placed (landing : Level) (column : String) (cell : Cell)
deriving DecidableEq

namespace Step

def ofRow (extent : Extent) (row : FragmentRow) : List Step :=
  match extent.landing? row.level with
  | none => [.dropped row.level]
  | some landing => row.cells.entries.map fun entry => .placed landing entry.1 entry.2

-- Rows are taken in ascending order of levels, rows of one level in the order given.
def ofFragment (extent : Extent) (fragment : List FragmentRow) : List Step :=
  (fragment.mergeSort fun left right => decide (left.level ≤ right.level)).flatMap (ofRow extent)

end Step

-- The names that a feature cell adds. A group adds none.
def Cell.featureNames : Cell → List String
  | .scalar value => [value.display]
  | .list items => items
  | .group _ => []

namespace Row

def groupIn (held : Option Cell) : Group :=
  match held with
  | some (.group members) => members
  | _ => {}

def listIn (held : Option Cell) : List String :=
  match held with
  | some (.list items) => items
  | _ => []

-- What a row holds in a column once a cell has landed there. `held` is what the row had, if it had the column.
def landed (cell : Cell) (landing level : Level) (held : Option (Option Cell)) : Option Cell :=
  match cell with
  | .scalar value => if landing ≤ level then some (.scalar value) else held.join
  | .list items =>
      if landing = level then some (.list (listIn held.join ++ items))
      else held.getD (some (.list []))
  | .group members =>
      if landing ≤ level then some (.group ((groupIn held.join).insertAll members.entries))
      else match held.join with
        | some (.group earlier) => some (.group (earlier.learn members.keys))
        | other => other

def place (landing : Level) (column : String) (cell : Cell) (row : Row) : Row :=
  if column = levelColumn then row
  else if column = featureColumn ∨ column = featuresColumn then
    if row.level = landing then {row with features := row.features ++ cell.featureNames} else row
  else {row with columns := row.columns.insert column (landed cell landing row.level (row.columns.get? column))}

end Row

structure Draft where
  extent : Extent := {}
  rows : List Row
deriving DecidableEq

namespace Draft

def blank (extent : Extent) : Draft where
  extent := extent
  rows := (List.range extent.maxLevel.toNat).map fun index => {level := UInt32.ofNat (index + 1)}

def take (draft : Draft) : Step → Draft
  | .dropped _ => draft
  | .placed landing column cell => {draft with rows := draft.rows.map (Row.place landing column cell)}

def apply (draft : Draft) (fragment : List FragmentRow) : Draft :=
  (Step.ofFragment draft.extent fragment).foldl take draft

def finish (draft : Draft) : Table := ⟨Alignment.align draft.rows⟩

def replacements (draft : Draft) (slug : String) (landing : Level) (column : String) : List Notice :=
  (draft.rows.filter fun row => decide (landing ≤ row.level)).filterMap fun row =>
    match row.cell? column with
    | some (.group _) => none
    | some previous => some (.cellReplaced slug previous column row.level)
    | none => none

def noticesOf (draft : Draft) (slug : String) : Step → List Notice
  | .dropped level => [.levelDropped level slug draft.extent.maxLevel draft.extent.offset]
  | .placed landing column (.group _) =>
      if column = levelColumn then []
      else if column = featureColumn ∨ column = featuresColumn then [.groupSkipped column slug landing]
      else draft.replacements slug landing column
  | .placed .. => []

def notices (slug : String) : Draft → List Step → List Notice
  | _, [] => []
  | draft, step :: rest => draft.noticesOf slug step ++ notices slug (draft.take step) rest

def applyNotices (draft : Draft) (slug : String) (fragment : List FragmentRow) : List Notice :=
  draft.notices slug (Step.ofFragment draft.extent fragment)

end Draft

end ClassProgression
