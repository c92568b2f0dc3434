import ClassProgression.NameMap.Basic

namespace ClassProgression.Command

-- Why the operating system refuses to read a file or to write to a stream.
inductive Refusal where
  | missing
  | denied
  | notDirectory
  | isDirectory
  | brokenPipe
  | nameTooLong
  | notUnicode
  | other (reason : String)
deriving DecidableEq

def Refusal.message : Refusal → String
  | .missing => "No such file or directory (os error 2)"
  | .denied => "Permission denied (os error 13)"
  | .notDirectory => "Not a directory (os error 20)"
  | .isDirectory => "Is a directory (os error 21)"
  | .brokenPipe => "Broken pipe (os error 32)"
  | .nameTooLong => "File name too long (os error 36)"
  | .notUnicode => "stream did not contain valid UTF-8"
  | .other reason => reason

inductive Entry where
  | file (content : ByteArray)
  | directory
  -- Something is there and cannot be read.
  | locked (reason : Refusal)
  | refused (reason : Refusal)

abbrev Files := String → Entry

namespace Files

def exists? (files : Files) (path : String) : Bool :=
  match files path with
  | .refused _ => false
  | _ => true

def read (files : Files) (path : String) : Except Refusal String :=
  match files path with
  | .refused reason | .locked reason => .error reason
  | .directory => .error .isDirectory
  | .file content =>
      match String.fromUTF8? content with
      | some text => .ok text
      | none => .error .notUnicode

end Files

-- A tree of files by their paths from its root; nothing stands for a directory.
abbrev FileTree := NameMap (Option ByteArray)

namespace FileTree

-- A place is a path from the root without detours; one that begins with two dots lies outside.
abbrev Place := List (List Char)

def upward : List Char := ['.', '.']

def steps (path : String) : Place := path.toList.splitOn '/'

def pathOf (place : Place) : String := String.ofList (['/'].intercalate place)

def isIdle (step : List Char) : Bool := step == [] || step == ['.']

def ofList (files : List (String × Option ByteArray)) : FileTree :=
  NameMap.ofList (files.map fun file => (pathOf ((steps file.1).filter (! isIdle ·)), file.2))

def leadsOn (tree : FileTree) (place : Place) : Bool :=
  tree.keys.any fun path => place.isPrefixOf (steps path) && decide (place.length < (steps path).length)

def entryAt (tree : FileTree) (place : Place) : Entry :=
  if place.all (· == upward) then .directory
  else match tree.get? (pathOf place) with
    | some (some content) => .file content
    | some none => .directory
    | none => if tree.leadsOn place then .directory else .refused .missing

def climb (place : Place) : Place :=
  if place.all (· == upward) then place ++ [upward] else place.dropLast

def longestName : Nat := 255
def longestPath : Nat := 4095

-- One step from a place, where `up` leads out of a directory. Only a directory can be stepped into.
def enter (tree : FileTree) (up : Place → Place) (place : Place) (step : List Char) : Except Refusal Place :=
  match tree.entryAt place with
  | .refused reason | .locked reason => .error reason
  | .file _ => .error .notDirectory
  | .directory =>
      if isIdle step then .ok place
      else if step = upward then .ok (up place)
      else if longestName < (String.ofList step).utf8ByteSize then .error .nameTooLong
      else .ok (place ++ [step])

def walk (tree : FileTree) (up : Place → Place) (path : String) : Entry :=
  match (steps path).foldlM (enter tree up) [] with
  | .ok place => tree.entryAt place
  | .error reason => .refused reason

-- What stands at the root of every system. There is no way further up.
def systemDirectories : List String :=
  ["bin", "boot", "dev", "etc", "home", "lib", "media", "mnt", "opt", "proc", "root", "run", "sbin", "srv",
    "sys", "tmp", "usr", "var"]

def system : FileTree :=
  ofList (("dev/null", some ByteArray.empty) :: systemDirectories.map fun name => (name, none))

-- Paths that begin with a slash lead out of the tree, to the root of the system.
def files (tree : FileTree) : Files := fun path =>
  if path.isEmpty then .refused .missing
  else if longestPath < path.utf8ByteSize then .refused .nameTooLong
  else if path.toList.head? = some '/' then system.walk List.dropLast path
  else tree.walk climb path

end FileTree

end ClassProgression.Command
