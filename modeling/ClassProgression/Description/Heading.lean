import ClassProgression.Text.Lines

namespace ClassProgression.Description

open Text

def deepest : Nat := 6

def hashes (line : List Char) : Nat := (line.takeWhile (· = '#')).length

def demoteLine (line : List Char) : List Char :=
  let depth := hashes line
  if 0 < depth ∧ depth < deepest ∧ (line.drop depth).head? = some ' ' then '#' :: line else line

def demoteText (text : List Char) : List Char := unlines ((lines text).map demoteLine)

def demoteHeadings (text : String) : String := String.ofList (demoteText text.toList)

end ClassProgression.Description
