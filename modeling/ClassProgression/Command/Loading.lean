import ClassProgression.Catalog.Json
import ClassProgression.Command.Files
import ClassProgression.Description.Basic
import ClassProgression.Settings.Toml
import ClassProgression.Table.Json

namespace ClassProgression.Command

inductive Failure where
  | settingsMissing (path : String)
  | unreadable (path : String) (reason : Refusal)
  | notATable (path : String)
  | unknownFeature (slug : String)
  | fault (cause : Fault)
  | unwritten (reason : Refusal)
deriving DecidableEq

namespace Failure

def message : Failure → String
  | .settingsMissing path => "Config file not found: " ++ path
  | .unreadable path reason => "Failed to read " ++ path ++ ": " ++ reason.message
  | .notATable path => "Invalid table " ++ path ++ ": "
  | .unknownFeature slug => "Unknown feature '" ++ slug ++ "'"
  | .fault cause => cause.message
  | .unwritten reason => reason.message

-- Where the message would go on with a reader's own finding it is left open.
def isOpen : Failure → Bool
  | .notATable _ => true
  | .fault .bundleUnreadable => true
  | .fault .settingsUnreadable => true
  | _ => false

def line (failure : Failure) : String := "Error: " ++ failure.message ++ (if failure.isOpen then "" else "\n")

end Failure

def usualSettingsPath : String := "classbook.toml"

def readSettings (files : Files) (path : String) : Except Failure Settings :=
  match files.read path with
  | .error reason => .error (.fault (.inputOutput reason.message))
  | .ok text => (Settings.ofToml text).mapError .fault

-- A path that the user gives has to exist; without one, settings are read where they usually are.
def loadSettings (files : Files) (given : Option String) : Except Failure Settings :=
  match given with
  | some path => if files.exists? path then readSettings files path else .error (.settingsMissing path)
  | none => if files.exists? usualSettingsPath then readSettings files usualSettingsPath else .ok {}

def readFile (files : Files) (path : String) : Except Failure String :=
  (files.read path).mapError (.unreadable path)

def loadCatalog (files : Files) (path : String) : Except Failure Catalog := do
  let text ← readFile files path
  (Catalog.ofBundle text).mapError .fault

def loadTable (files : Files) (path : String) : Except Failure Table := do
  let text ← readFile files path
  match Table.read? text with
  | some table => .ok table
  | none => .error (.notATable path)

def describe (catalog : Catalog) (subject : Subject) (slug : Option String) :
    Except Failure (List (String × String)) :=
  match slug with
  | none => (Description.describeClass catalog subject).mapError .fault
  | some slug =>
      match catalog.get? slug with
      | none => .error (.unknownFeature slug)
      | some feature => ((Description.describe catalog subject feature).mapError .fault).map fun text => [(slug, text)]

end ClassProgression.Command
