import ClassProgression.Fault
import ClassProgression.Settings.Basic
import ClassProgression.Toml.Reader
import ClassProgression.Toml.Writer

namespace ClassProgression

open Toml (Value Entries)

namespace Settings

def word32? : Value → Option UInt32
  | .integer value => Integer.unsigned32? value.toInt
  | _ => none

def text? : Value → Option String
  | .text value => some value
  | _ => none

-- A field that may be missing, but not unreadable.
def optional? (read : Value → Option α) : Option Value → Option (Option α)
  | none => some none
  | some value => (read value).map some

def maxLevel? : Value → Option UInt32
  | .table _ entries => (optional? word32? (Entries.find? "max_level" entries)).map (·.getD Level.defaultHighest)
  | .list items => (optional? word32? items[0]?).map (·.getD Level.defaultHighest)
  | .dateTime _ => some Level.defaultHighest
  | _ => none

def classParts? (name maxLevel : Option Value) : Option ClassSettings := do
  return ⟨← optional? text? name, ← optional? word32? maxLevel⟩

def class? : Value → Option ClassSettings
  | .table _ entries => classParts? (Entries.find? "name" entries) (Entries.find? "max_level" entries)
  | .list items => classParts? items[0]? items[1]?
  | .dateTime _ => some {}
  | _ => none

def classes? : Value → Option (NameMap ClassSettings)
  | .table _ entries =>
      (entries.mapM fun entry => (class? entry.2).map fun settings => (entry.1, settings)).map NameMap.ofList
  | _ => none

def ofEntries? (entries : Entries) : Option Settings := do
  let maxLevel ← optional? maxLevel? (Entries.find? "compose" entries)
  let classes ← optional? classes? (Entries.find? "classes" entries)
  return ⟨maxLevel.getD Level.defaultHighest, classes.getD {}⟩

def read? (text : String) : Option Settings := (Toml.read? text).bind ofEntries?

def ofToml (text : String) : Except Fault Settings :=
  match read? text with
  | some settings => .ok settings
  | none => .error .settingsUnreadable

def writeNumber (name : String) (number : UInt32) : List Char :=
  name.toList ++ " = ".toList ++ Nat.toDigits 10 number.toNat ++ ['\n']

def writeClass (entry : String × ClassSettings) : List Char :=
  "[classes.".toList ++ Toml.writeKey entry.1.toList ++ "]\n".toList ++
    (match entry.2.name with
      | some name => "name = ".toList ++ Toml.writeText name.toList ++ ['\n']
      | none => []) ++
    (match entry.2.maxLevel with
      | some maxLevel => writeNumber "max_level" maxLevel
      | none => [])

def writeClasses (classes : NameMap ClassSettings) : List Char :=
  if classes.isEmpty then "[classes]\n".toList
  else ['\n'].intercalate (classes.entries.map writeClass)

def write (settings : Settings) : List Char :=
  "[compose]\n".toList ++ writeNumber "max_level" settings.maxLevel ++ ['\n'] ++ writeClasses settings.classes

def toToml (settings : Settings) : String := String.ofList settings.write

end Settings

end ClassProgression
