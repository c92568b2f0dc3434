import ClassProgression.Toml.Assembly
import ClassProgression.Toml.DateTime
import ClassProgression.Toml.Number
import ClassProgression.Toml.Quoted

namespace ClassProgression.Toml

def depthLimit : Nat := 80

def keyPart? (input : List Char) : Option (String × List Char) :=
  match input with
  | '"' :: rest => (basicLine? rest).map fun parts => (String.ofList parts.1, parts.2)
  | '\'' :: rest => (literalLine? rest).map fun parts => (String.ofList parts.1, parts.2)
  | _ =>
      let bare := input.takeWhile isBareKeyChar
      if bare.isEmpty then none else some (String.ofList bare, input.dropWhile isBareKeyChar)

-- The parts of a key up to the first character behind it that is no blank. The fuel bounds their number.
def keyParts? : Nat → List Char → Option (List String × List Char)
  | 0, _ => none
  | fuel + 1, input => do
      let (part, rest) ← keyPart? (skipBlank input)
      match skipBlank rest with
      | '.' :: rest => (keyParts? fuel rest).map fun parts => (part :: parts.1, parts.2)
      | rest => some ([part], rest)

def key? (input : List Char) : Option ((List String × String) × List Char) := do
  let (parts, rest) ← keyParts? (depthLimit - 1) input
  let last ← parts.getLast?
  return ((parts.dropLast, last), rest)

def pair? (value : List Char → Option (Value × List Char)) (input : List Char) : Option (Pair × List Char) := do
  let ((path, name), rest) ← key? input
  match rest with
  | '=' :: rest =>
      let (content, rest) ← value (skipBlank rest)
      return (⟨path, name, content⟩, rest)
  | _ => none

def word? (letters : String) (value : Value) (input : List Char) : Option (Value × List Char) :=
  if letters.toList.isPrefixOf input then some (value, input.drop letters.length) else none

-- Items of an array behind its bracket. The last may be followed by a comma.
def items? (value : List Char → Option (Value × List Char)) : Nat → List Char → Option (List Value × List Char)
  | 0, _ => none
  | fuel + 1, input =>
      match skipLines input.length input with
      | ']' :: rest => some ([], rest)
      | atItem => do
          let (item, rest) ← value atItem
          match skipLines rest.length rest with
          | ',' :: rest => (items? value fuel rest).map fun parts => (item :: parts.1, parts.2)
          | ']' :: rest => some ([item], rest)
          | _ => none

-- Pairs of a table in braces, behind a brace or a comma. No comma follows the last.
def inlinePairs? (value : List Char → Option (Value × List Char)) : Nat → List Char → Option (List Pair × List Char)
  | 0, _ => none
  | fuel + 1, input => do
      let (pair, rest) ← pair? value input
      match skipBlank rest with
      | ',' :: rest => (inlinePairs? value fuel rest).map fun parts => (pair :: parts.1, parts.2)
      | '\x7d' :: rest => some ([pair], rest)
      | _ => none

def plainValue? (input : List Char) : Option (Value × List Char) :=
  match input with
  | '"' :: _ => (quoted? input).map fun parts => (.text (String.ofList parts.1), parts.2)
  | '\'' :: _ => (quoted? input).map fun parts => (.text (String.ofList parts.1), parts.2)
  | 't' :: _ => word? "true" (.boolean true) input
  | 'f' :: _ => word? "false" (.boolean false) input
  | _ => ((dateTime? input).orElse fun _ => float? input).orElse fun _ =>
      (specialFloat? input).orElse fun _ => integer? input

-- Arrays and tables in braces may nest `depth` deep.
def value? : Nat → List Char → Option (Value × List Char)
  | depth, input =>
      match input with
      | '[' :: rest =>
          match depth with
          | 0 => none
          | depth + 1 => (items? (value? depth) input.length rest).map fun parts => (.list parts.1, parts.2)
      | '\x7b' :: rest =>
          match depth with
          | 0 => none
          | depth + 1 =>
              match skipBlank rest with
              | '\x7d' :: rest => some (.table .inline [], rest)
              | _ => do
                  let (pairs, rest) ← inlinePairs? (value? depth) input.length rest
                  return (← inlineTable? pairs, rest)
      | _ => plainValue? input

def header? (input : List Char) : Option (Section × List Char) :=
  match input with
  | '[' :: '[' :: rest => do
      let ((path, name), rest) ← key? rest
      match rest with
      | ']' :: ']' :: rest => return (⟨path, name, true, []⟩, rest)
      | _ => none
  | '[' :: rest => do
      let ((path, name), rest) ← key? rest
      match rest with
      | ']' :: rest => return (⟨path, name, false, []⟩, rest)
      | _ => none
  | _ => none

inductive Line where
  | blank
  | header (part : Section)
  | pair (pair : Pair)

def line? (input : List Char) : Option (Line × List Char) :=
  match skipBlank input with
  | [] => some (.blank, [])
  | '#' :: rest => (lineEnd? ('#' :: rest)).map fun rest => (.blank, rest)
  | '[' :: rest => do
      let (part, rest) ← header? ('[' :: rest)
      return (.header part, ← lineEnd? rest)
  | c :: rest =>
      match newline? (c :: rest) with
      | some rest => some (.blank, rest)
      | none => do
          let (pair, rest) ← pair? (value? (depthLimit - 1)) (c :: rest)
          return (.pair pair, ← lineEnd? rest)

def lines? : Nat → List Char → Option (List Line)
  | _, [] => some []
  | 0, _ => none
  | fuel + 1, input => do
      let (line, rest) ← line? input
      return line :: (← lines? fuel rest)

-- Pairs go to the header above them.
def gather : List Line → List Pair × List Section
  | [] => ([], [])
  | line :: rest =>
      let (pairs, sections) := gather rest
      match line with
      | .blank => (pairs, sections)
      | .pair pair => (pair :: pairs, sections)
      | .header part => ([], {part with pairs := pairs} :: sections)

def byteOrderMark : Char := '\ufeff'

def document? (input : List Char) : Option Document := do
  let input := if input.head? == some byteOrderMark then input.drop 1 else input
  let lines ← lines? (input.length + 1) input
  let (leading, sections) := gather lines
  return ⟨leading, sections⟩

def read? (text : String) : Option Entries := (document? text.toList).bind Document.entries?

end ClassProgression.Toml
