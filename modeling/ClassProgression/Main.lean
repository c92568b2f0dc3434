import ClassProgression.Command.Run

namespace ClassProgression.Command

def refusalOf (failure : IO.Error) : Refusal :=
  match failure with
  | .noFileOrDirectory .. => .missing
  | .permissionDenied .. => .denied
  | .inappropriateType _ code _ => if code = 21 then .isDirectory else .notDirectory
  | .resourceVanished 32 _ => .brokenPipe
  | .invalidArgument _ 36 _ => .nameTooLong
  | other => .other (toString other)

def stands (path : String) : IO Bool := do
  try
    let _ ← IO.FS.realPath path
    return true
  catch _ => return false

def openPath (path : String) : IO Entry := do
  try
    return .file (← IO.FS.readBinFile path)
  catch failure =>
    match refusalOf failure with
    | .isDirectory => return .directory
    | reason => return if ← stands path then .locked reason else .refused reason

def openPaths (paths : List String) : IO Files := do
  let opened ← paths.mapM fun path => return (path, ← openPath path)
  return fun path => (opened.lookup path).getD (.refused .missing)

-- How much of a refused piece has gone through is not told.
def writePiece (piece : Piece) : IO Answer := do
  let stream ← match piece with
    | .printed _ => IO.getStdout
    | .noted _ => IO.getStderr
  try
    stream.putStr piece.text
    stream.flush
    return .taken
  catch failure => return .refused 0 (refusalOf failure)

end ClassProgression.Command

open ClassProgression Command in
def main (arguments : List String) : IO UInt32 := do
  let environment ← IO.getEnv "CLASSBOOK_CONFIG"
  let paths := match request? environment arguments with
    | some (.invoke invocation) => invocation.paths
    | _ => []
  runWith writePiece (← openPaths paths) environment arguments
