import ClassProgression.Toml.Basic

namespace ClassProgression.Toml

structure Pair where
  path : List String
  name : String
  value : Value

-- A header with the pairs below it. The pairs in front of all headers belong to the whole text.
structure Section where
  path : List String
  name : String
  -- Written in double brackets.
  repeated : Bool
  pairs : List Pair

structure Document where
  leading : List Pair := []
  sections : List Section := []

namespace Entries

-- `here` says whether the table at hand was named by a dotted key; a value belongs into such a table
-- exactly when its own key is dotted.
def addAt? (isDotted : Bool) (name : String) (value : Value) (here : Bool) : List String → Entries → Option Entries
  | [], entries =>
      if here ≠ isDotted ∨ (entries.find? name).isSome then none else some (entries.put name value)
  | step :: rest, entries =>
      match entries.find? step with
      | none => (addAt? isDotted name value true rest []).map fun inner => entries.put step (.table .dotted inner)
      | some (.table .dotted inner) =>
          (addAt? isDotted name value true rest inner).map fun grown => entries.put step (.table .dotted grown)
      | some (.table .implied inner) =>
          (addAt? isDotted name value false rest inner).map fun grown => entries.put step (.table .implied grown)
      | some (.tables elements) =>
          elements.getLast?.bind fun last =>
            (addAt? isDotted name value false rest last).map fun grown =>
              entries.put step (.tables (elements.dropLast ++ [grown]))
      | some _ => none

def addPair? (entries : Entries) (pair : Pair) : Option Entries :=
  addAt? (!pair.path.isEmpty) pair.name pair.value false pair.path entries

def addPairs? (entries : Entries) (pairs : List Pair) : Option Entries := pairs.foldlM addPair? entries

-- Changes the table that a header's path leads to. Tables that are missing on the way are implied;
-- an array of tables leads to its last one.
def atPath? (change : Entries → Option Entries) : List String → Entries → Option Entries
  | [], entries => change entries
  | step :: rest, entries =>
      match entries.find? step with
      | none => (atPath? change rest []).map fun inner => entries.put step (.table .implied inner)
      | some (.table .inline _) => none
      | some (.table origin inner) =>
          (atPath? change rest inner).map fun grown => entries.put step (.table origin grown)
      | some (.tables elements) =>
          elements.getLast?.bind fun last =>
            (atPath? change rest last).map fun grown => entries.put step (.tables (elements.dropLast ++ [grown]))
      | some _ => none

-- Opens the table `name` and fills it. An implied table may still be opened.
def openTable? (name : String) (pairs : List Pair) (entries : Entries) : Option Entries :=
  match entries.find? name with
  | none => (addPairs? [] pairs).map fun body => entries.put name (.table .header body)
  | some (.table .implied inner) => (addPairs? inner pairs).map fun body => entries.put name (.table .header body)
  | some _ => none

def openElement? (name : String) (pairs : List Pair) (entries : Entries) : Option Entries :=
  match entries.find? name with
  | none => (addPairs? [] pairs).map fun body => entries.put name (.tables [body])
  | some (.tables elements) => (addPairs? [] pairs).map fun body => entries.put name (.tables (elements ++ [body]))
  | some _ => none

def addSection? (entries : Entries) (part : Section) : Option Entries :=
  atPath? (if part.repeated then openElement? part.name part.pairs else openTable? part.name part.pairs)
    part.path entries

end Entries

def Document.entries? (document : Document) : Option Entries := do
  let leading ← Entries.addPairs? [] document.leading
  document.sections.foldlM Entries.addSection? leading

-- A table in braces is complete and closed.
def inlineTable? (pairs : List Pair) : Option Value := (Entries.addPairs? [] pairs).map (.table .inline)

end ClassProgression.Toml
