import ClassProgression.Json.Number
import ClassProgression.Json.Quoted

namespace ClassProgression.Json

def isBlank (c : Char) : Bool := c == ' ' || c == '\t' || c == '\n' || c == '\r'

def skipBlank (input : List Char) : List Char := input.dropWhile isBlank

def literals : List (List Char × Json) :=
  [(['n', 'u', 'l', 'l'], .null), (['t', 'r', 'u', 'e'], .bool true), (['f', 'a', 'l', 's', 'e'], .bool false)]

def readLiteral? (input : List Char) : Option (Json × List Char) :=
  literals.findSome? fun literal =>
    if literal.1.isPrefixOf input then some (literal.2, input.drop literal.1.length) else none

def readText? (input : List Char) : Option (String × List Char) :=
  match input with
  | '"' :: rest => (unquote rest).map fun parts => (String.ofList parts.1, parts.2)
  | _ => none

-- Items after the opening bracket, with `item` for one of them. The fuel bounds their number.
def readItems? (item : List Char → Option (α × List Char)) (close : Char) : Nat → List Char → Option (List α × List Char)
  | 0, _ => none
  | fuel + 1, input => do
      let (first, rest) ← item (skipBlank input)
      match skipBlank rest with
      | c :: rest =>
          if c = close then some ([first], rest)
          else if c = ',' then
            (readItems? item close fuel rest).map fun parts => (first :: parts.1, parts.2)
          else none
      | [] => none

def readSequence? (item : List Char → Option (α × List Char)) (close : Char) (input : List Char) :
    Option (List α × List Char) :=
  match skipBlank input with
  | c :: rest => if c = close then some ([], rest) else readItems? item close input.length input
  | [] => none

def readField? (value : List Char → Option (Json × List Char)) (input : List Char) :
    Option ((String × Json) × List Char) := do
  let (name, rest) ← readText? input
  match skipBlank rest with
  | ':' :: rest =>
      let (content, rest) ← value (skipBlank rest)
      return ((name, content), rest)
  | _ => none

-- The value at the head of a text that does not begin with a blank. Lists and objects may nest
-- `depth` deep.
def readValue? : Nat → List Char → Option (Json × List Char)
  | depth, input =>
      match input with
      | '[' :: rest =>
          match depth with
          | 0 => none
          | depth + 1 => (readSequence? (readValue? depth) ']' rest).map fun parts => (.list parts.1, parts.2)
      | '{' :: rest =>
          match depth with
          | 0 => none
          | depth + 1 =>
              (readSequence? (readField? (readValue? depth)) '\x7d' rest).map fun parts => (.object parts.1, parts.2)
      | '"' :: _ => (readText? input).map fun parts => (.text parts.1, parts.2)
      | _ => (readLiteral? input).orElse fun _ => readNumber? input

def maxDepth : Nat := 127

def readChars? (input : List Char) : Option Json :=
  match readValue? maxDepth (skipBlank input) with
  | some (value, rest) => if (skipBlank rest).isEmpty then some value else none
  | none => none

def read? (input : String) : Option Json := readChars? input.toList

end ClassProgression.Json
