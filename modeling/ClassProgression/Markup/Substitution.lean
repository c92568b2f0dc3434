import ClassProgression.Markup.Line
import ClassProgression.Markup.Scope
import ClassProgression.Markup.Tag

namespace ClassProgression.Markup

inductive Request where
  | className
  | nextLevel
  | remainingLevels
  | allLevels
  | term (name : String)
deriving DecidableEq

def Request.ofName (name : String) : Request :=
  if name = "class" then .className
  else if name = "level" then .nextLevel
  else if name = "end-levels" then .remainingLevels
  else if name = "all-levels" ∨ name = "levels" then .allLevels
  else .term name

inductive Resolution where
  | replace (value : List Char)
  | deleteLine
deriving DecidableEq

-- What `level` and `end-levels` share: how many levels have been asked for one by one, which may be more than there are, and
-- whether the rest has been taken as a whole.
structure LevelCursor where
  visited : Nat := 0
  exhausted : Bool := false
deriving DecidableEq

namespace LevelCursor

def next (cursor : LevelCursor) (levels : List Level) : Option Level × LevelCursor :=
  if cursor.exhausted then (none, cursor)
  else (levels[cursor.visited]?, {cursor with visited := cursor.visited + 1})

def rest (cursor : LevelCursor) (levels : List Level) : List Level × LevelCursor :=
  if cursor.exhausted then ([], cursor)
  else (levels.drop (min cursor.visited levels.length), {cursor with exhausted := true})

def resolve (scope : Scope) (cursor : LevelCursor) (name : String) (line : Nat) :
    Except TagFault (Resolution × LevelCursor) :=
  match Request.ofName name with
  | .className => .ok (.replace scope.className.toList, cursor)
  | .nextLevel =>
      match cursor.next scope.levels with
      | (some level, later) => (Level.phrase [level]).map fun phrase => (.replace phrase.toList, later)
      | (none, later) => .ok (.deleteLine, later)
  | .remainingLevels =>
      match cursor.rest scope.levels with
      | ([], later) => .ok (.deleteLine, later)
      | (levels, later) => (Level.phrase levels).map fun phrase => (.replace phrase.toList, later)
  | .allLevels => (Level.phrase scope.levels).map fun phrase => (.replace phrase.toList, cursor)
  | .term name =>
      match scope.terms.get? name with
      | some value => .ok (.replace value.toList, cursor)
      | none => .error (.unrecognized name line)

end LevelCursor

-- The edited text and the position right behind what was put in or right before what follows the
-- removed line.
def edit (text : List Char) (tag : Tag) : Resolution → List Char × Nat
  | .replace value => (text.take tag.start ++ value ++ text.drop tag.stop, tag.start + value.length)
  | .deleteLine => deleteLine text tag.start tag.stop

theorem edit_shortens (text : List Char) (start : Nat) (tag : Tag) (resolution : Resolution)
    (found : findTag text start = some tag) :
    (edit text tag resolution).1.length - (edit text tag resolution).2 < text.length - start := by
  have bounds := findTag_bounds text start tag found
  cases resolution with
  | replace value => simp [edit]; omega
  | deleteLine =>
      have remainder := congrArg List.length (deleteLine_remainder text tag.start tag.stop)
      have shorter := afterFirstLine_length (text.drop tag.stop)
      simp only [List.length_drop] at remainder shorter
      simp only [edit]
      omega

-- From left to right; what is put in is not looked at again.
def LevelCursor.fillFrom (scope : Scope) (text : List Char) (start : Nat) (cursor : LevelCursor) :
    Except TagFault (List Char) :=
  match _found : findTag text start with
  | none => .ok text
  | some tag =>
      match cursor.resolve scope (String.ofList tag.name) (lineNumber text tag.start) with
      | .error fault => .error fault
      | .ok (resolution, later) =>
          fillFrom scope (edit text tag resolution).1 (edit text tag resolution).2 later
termination_by text.length - start
decreasing_by exact edit_shortens text start tag resolution _found

def fill (scope : Scope) (template : List Char) : Except TagFault (List Char) :=
  LevelCursor.fillFrom scope template 0 {}

def substitute (scope : Scope) (template : String) : Except TagFault String :=
  (fill scope template.toList).map String.ofList

end ClassProgression.Markup
