import ClassProgression.Command.Arguments
import ClassProgression.Command.Loading
import ClassProgression.Table.Composition
import ClassProgression.Table.Merge

namespace ClassProgression.Command

-- Texts are written as for streams that are no terminals, without colours. Log lines are left out.
inductive Piece where
  | printed (text : String)
  | noted (text : String)
deriving DecidableEq

namespace Piece

@[simp]
def text : Piece → String
  | .printed text => text
  | .noted text => text

@[simp]
def printed? : Piece → Option String
  | .printed text => some text
  | .noted _ => none

@[simp]
def noted? : Piece → Option String
  | .printed _ => none
  | .noted text => some text

end Piece

-- What a command hands to its streams, one piece after the other, and how it ends if every piece is taken. None of it is
-- sure to be written: a piece that is refused ends the command where it stands.
structure Session (α : Type) where
  pieces : List Piece
  result : Except Failure α

namespace Session

def pure (value : α) : Session α := ⟨[], .ok value⟩

def bind (session : Session α) (next : α → Session β) : Session β :=
  match session.result with
  | .error failure => ⟨session.pieces, .error failure⟩
  | .ok value => ⟨session.pieces ++ (next value).pieces, (next value).result⟩

instance : Monad Session where
  pure := Session.pure
  bind := Session.bind

def print (text : String) : Session Unit := ⟨[.printed text], .ok ()⟩

def noteIf (condition : Bool) (text : String) : Session Unit := ⟨if condition then [.noted text] else [], .ok ()⟩

def attempt (step : Except Failure α) : Session α := ⟨[], step⟩

end Session

def loadedNote (catalog : Catalog) (path : String) : String :=
  "→ Loaded " ++ Nat.repr catalog.size ++ " features from " ++ path ++ "\n"

def line (text : String) : String := text ++ "\n"

def descriptionsJson (subject : Subject) (descriptions : List (String × String)) : Json :=
  .object [("class", .text subject.className), ("name", .text subject.displayName),
    ("descriptions", .object (descriptions.map fun entry => (entry.1, .text entry.2)))]

namespace Session

def openCatalog (files : Files) (verbose : Bool) (path : String) : Session Catalog := do
  let catalog ← attempt (loadCatalog files path)
  noteIf verbose (loadedNote catalog path)
  return catalog

-- Levels are phrased when their line is due.
def printLevels (entry : String × List Level) : Session Unit := do
  let phrase ← attempt ((Level.phrase entry.2).mapError fun cause => .fault (.tag cause))
  print (line ("  " ++ entry.1 ++ ": " ++ phrase))

def printSummary (settings : Settings) (className : String) (table : Table) : Session Unit := do
  print (line (settings.displayName className))
  table.featureLevels.forM printLevels

def composing (files : Files) (invocation : Invocation) (options : TableOptions) : Session Unit := do
  let settings ← attempt (loadSettings files invocation.settingsPath)
  let catalog ← openCatalog files invocation.verbose options.bundle
  noteIf (catalog.contributors options.className).isEmpty
    ("⚠ No feature has a progression for class '" ++ options.className ++ "'\n")
  let extent : Extent := ⟨options.maxLevel.getD (settings.maxLevelOf options.className), options.offset⟩
  let table := Table.composeClass catalog options.className extent
  if options.summary then printSummary settings options.className table else print (line table.pretty)

def openTables (files : Files) (verbose : Bool) : List String → Session (List Table)
  | [] => return []
  | path :: rest => do
      let table ← attempt (loadTable files path)
      noteIf verbose ("→ " ++ path ++ " (" ++ Nat.repr table.rows.length ++ " rows)\n")
      let tables ← openTables files verbose rest
      return table :: tables

def merging (files : Files) (invocation : Invocation) (paths : List String) : Session Unit := do
  let tables ← openTables files invocation.verbose paths
  let merged ← attempt ((Table.merge tables).mapError .fault)
  print (line merged.pretty)

def printDescriptions (several : Bool) : List (String × String) → Session Unit
  | [] => return
  | (slug, text) :: rest => do
      if several then print (line ("→ " ++ slug))
      print (line text)
      if rest ≠ [] then print "\n"
      printDescriptions several rest

def describing (files : Files) (invocation : Invocation) (options : DescribeOptions) : Session Unit := do
  let settings ← attempt (loadSettings files invocation.settingsPath)
  let catalog ← openCatalog files invocation.verbose options.bundle
  let subject : Subject := ⟨options.className, settings.displayName options.className⟩
  let descriptions ← attempt (describe catalog subject options.slug)
  if options.json then print (line (descriptionsJson subject descriptions).pretty)
  else if descriptions = [] then print (line ("⚠ No features are bound to class '" ++ subject.className ++ "'"))
  else printDescriptions (decide (1 < descriptions.length)) descriptions

def phrasing (levels : List Level) : Session Unit := do
  let phrase ← attempt ((Level.phrase levels).mapError fun cause => .fault (.tag cause))
  print (line phrase)

end Session

def Invocation.session (files : Files) (invocation : Invocation) : Session Unit :=
  match invocation.action with
  | .table options => Session.composing files invocation options
  | .merge paths => Session.merging files invocation paths
  | .describe options => Session.describing files invocation options
  | .levels levels => Session.phrasing levels

end ClassProgression.Command
