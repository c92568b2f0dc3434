import ClassProgression.Toml.Quoted

namespace ClassProgression.Toml

def needsEscape (c : Char) : Bool := isControl c && c != '\t' && c != '\n'

def longestRun (mark : Char) : Nat → List Char → Nat
  | run, [] => run
  | run, c :: rest => if c = mark then longestRun mark (run + 1) rest else max run (longestRun mark 0 rest)

def upperHexDigit (n : Nat) : Char := (Nat.digitChar n).toUpper

def escapeChar (c : Char) : List Char :=
  if c = '"' then ['\\', '"']
  else if c = '\\' then ['\\', '\\']
  else if c = '\n' then ['\\', 'n']
  else if c = '\t' then ['\\', 't']
  else if c = '\r' then ['\\', 'r']
  else if c = '\x08' then ['\\', 'b']
  else if c = '\x0c' then ['\\', 'f']
  else if isControl c then ['\\', 'u', '0', '0', upperHexDigit (c.toNat / 16), upperHexDigit (c.toNat % 16)]
  else [c]

def basicLine (text : List Char) : List Char := '"' :: (text.flatMap escapeChar ++ ['"'])

def literalLine (text : List Char) : List Char := '\'' :: (text ++ ['\''])

-- In triple marks every third quote in a row is escaped, and line ends stand as they are.
def escapeLines (quotes : Nat) : List Char → List Char
  | [] => []
  | c :: rest =>
      if c = '"' ∧ quotes < 2 then '"' :: escapeLines (quotes + 1) rest
      else if c = '\n' then '\n' :: escapeLines 0 rest
      else escapeChar c ++ escapeLines 0 rest

-- A text of several lines begins on a line of its own.
def opening (text : List Char) : List Char := if '\n' ∈ text then ['\n'] else []

def basicLines (text : List Char) : List Char :=
  ['"', '"', '"'] ++ opening text ++ escapeLines 0 text ++ ['"', '"', '"']

def literalLines (text : List Char) : List Char :=
  ['\'', '\'', '\''] ++ opening text ++ text ++ ['\'', '\'', '\'']

def writeText (text : List Char) : List Char :=
  let escapes := text.any needsEscape
  let backslash := '\\' ∈ text
  let several := '\n' ∈ text
  if ¬ escapes ∧ ¬ several ∧ ¬ backslash ∧ '"' ∉ text then basicLine text
  else if ¬ escapes ∧ ¬ several ∧ '\'' ∉ text then literalLine text
  else if ¬ escapes ∧ ¬ backslash ∧ longestRun '"' 0 text ≤ 2 then basicLines text
  else if ¬ escapes ∧ longestRun '\'' 0 text ≤ 2 then literalLines text
  else if several then basicLines text
  else basicLine text

def writeKey (key : List Char) : List Char :=
  let escapes := key.any fun c => needsEscape c || c == '\n'
  if ¬ key.isEmpty ∧ key.all isBareKeyChar then key
  else if ¬ escapes ∧ '\\' ∉ key ∧ '"' ∉ key then basicLine key
  else if ¬ escapes ∧ '\'' ∉ key then literalLine key
  else basicLine key

end ClassProgression.Toml
