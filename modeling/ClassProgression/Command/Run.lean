import ClassProgression.Command.Session

namespace ClassProgression.Command

-- What becomes of a piece. Of a refused one the first bytes may have gone through.
inductive Answer where
  | taken
  | refused (through : Nat) (reason : Refusal)
deriving DecidableEq

section Writing

variable {m : Type → Type} [Monad m] (write : Piece → m Answer)

def handOver : List Piece → m (Option (Piece × Refusal))
  | [] => return none
  | piece :: rest => do
      match ← write piece with
      | .taken => handOver rest
      | .refused _ reason => return some (piece, reason)

-- A refused note is a panic. What a panic still tries to say of itself is left out.
def panicStatus : UInt32 := 101

def Failure.report (failure : Failure) : m UInt32 := do
  match ← write (.noted failure.line) with
  | .taken => return 1
  | .refused _ _ => return panicStatus

def Session.perform (session : Session Unit) : m UInt32 := do
  match ← handOver write session.pieces with
  | some (.printed _, reason) => (Failure.unwritten reason).report write
  | some (.noted _, _) => return panicStatus
  | none =>
      match session.result with
      | .ok _ => return 0
      | .error failure => failure.report write

def versionLine : String := "classbook 0.1.0\n"

def usageLine : String := "error: the arguments do not make up a command\n"

-- Whether the version or a usage error is written makes no difference to the status.
def runWith (files : Files) (environment : Option String) (arguments : List String) : m UInt32 := do
  match request? environment arguments with
  | none =>
      let _ ← write (.noted usageLine)
      return 2
  | some .version =>
      let _ ← write (.printed versionLine)
      return 0
  | some (.invoke invocation) => (invocation.session files).perform write

end Writing

structure Outcome where
  status : UInt32
  stdout : String
  stderr : String
deriving DecidableEq

structure Screen where
  output : String := ""
  errors : String := ""

def Screen.write (piece : Piece) : StateM Screen Answer := fun screen =>
  (.taken, match piece with
    | .printed text => {screen with output := screen.output ++ text}
    | .noted text => {screen with errors := screen.errors ++ text})

def run (files : Files) (environment : Option String) (arguments : List String) : Outcome :=
  let (status, screen) := (runWith Screen.write files environment arguments).run {}
  ⟨status, screen.output, screen.errors⟩

def Invocation.paths (invocation : Invocation) : List String :=
  let settings := invocation.settingsPath.getD usualSettingsPath
  match invocation.action with
  | .table options => [settings, options.bundle]
  | .merge paths => paths
  | .describe options => [settings, options.bundle]
  | .levels _ => []

end ClassProgression.Command
