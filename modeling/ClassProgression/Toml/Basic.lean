namespace ClassProgression.Toml

inductive Origin where
  -- Written in braces; closed.
  | inline
  -- Opened by a header of its own.
  | header
  -- Named only on the way to another header.
  | implied
  -- Named by a dotted key.
  | dotted
deriving DecidableEq

inductive Value where
  | text (value : String)
  | integer (value : Int64)
  | float (value : Float)
  | boolean (value : Bool)
  | dateTime (spelling : List Char)
  | list (items : List Value)
  | table (origin : Origin) (entries : List (String × Value))
  -- An array that headers in double brackets extend, each opening another table.
  | tables (elements : List (List (String × Value)))

abbrev Entries := List (String × Value)

namespace Entries

def find? (name : String) (entries : Entries) : Option Value := entries.lookup name

-- Puts a value in place of the one that bears the name, or at the end.
def put (name : String) (value : Value) : Entries → Entries
  | [] => [(name, value)]
  | (other, held) :: rest =>
      if other = name then (name, value) :: rest else (other, held) :: put name value rest

end Entries

end ClassProgression.Toml
