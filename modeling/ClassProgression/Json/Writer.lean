import ClassProgression.Json.Basic
import ClassProgression.Json.Quoted

namespace ClassProgression.Json

def writeName (name : String) : List Char := quote name.toList

def writeScalar : Json → List Char
  | .null => ['n', 'u', 'l', 'l']
  | .bool true => ['t', 'r', 'u', 'e']
  | .bool false => ['f', 'a', 'l', 's', 'e']
  | .integer value => (Int.repr value.toInt).toList
  | .float value => numerals.write value
  | .text value => quote value.toList
  | .list _ => []
  | .object _ => []

mutual

def compactChars : Json → List Char
  | .list items => '[' :: (compactItems items ++ [']'])
  | .object fields => '\x7b' :: (compactFields fields ++ ['\x7d'])
  | value => writeScalar value

def compactItems : List Json → List Char
  | [] => []
  | [only] => compactChars only
  | item :: rest => compactChars item ++ ',' :: compactItems rest

def compactFields : List (String × Json) → List Char
  | [] => []
  | [(name, value)] => writeName name ++ ':' :: compactChars value
  | (name, value) :: rest => writeName name ++ ':' :: (compactChars value ++ ',' :: compactFields rest)

end

def newlineIndent (depth : Nat) : List Char := '\n' :: List.replicate (2 * depth) ' '

mutual

def prettyChars (depth : Nat) : Json → List Char
  | .list [] => ['[', ']']
  | .list items => '[' :: (prettyItems (depth + 1) items ++ newlineIndent depth ++ [']'])
  | .object [] => ['\x7b', '\x7d']
  | .object fields => '\x7b' :: (prettyFields (depth + 1) fields ++ newlineIndent depth ++ ['\x7d'])
  | value => writeScalar value

def prettyItems (depth : Nat) : List Json → List Char
  | [] => []
  | [only] => newlineIndent depth ++ prettyChars depth only
  | item :: rest => newlineIndent depth ++ prettyChars depth item ++ ',' :: prettyItems depth rest

def prettyFields (depth : Nat) : List (String × Json) → List Char
  | [] => []
  | [(name, value)] => newlineIndent depth ++ writeName name ++ ':' :: ' ' :: prettyChars depth value
  | (name, value) :: rest =>
      newlineIndent depth ++ writeName name ++ ':' :: ' ' :: (prettyChars depth value ++ ',' :: prettyFields depth rest)

end

def compact (value : Json) : String := String.ofList (compactChars value)

def pretty (value : Json) : String := String.ofList (prettyChars 0 value)

end ClassProgression.Json
