import ClassProgression.Text.Lines

namespace ClassProgression.Markup

open Text

-- The text before its last newline, or nothing if it is a single line.
def beforeLastLine (text : List Char) : List Char :=
  ((text.reverse.dropWhile (· ≠ newline)).drop 1).reverse

-- The text after its first newline, or nothing if it is a single line.
def afterFirstLine (text : List Char) : List Char := (text.dropWhile (· ≠ newline)).drop 1

-- Removes the line that holds the span from `start` to `stop`. The position returned stands right
-- before the first line after the removed one.
def deleteLine (text : List Char) (start stop : Nat) : List Char × Nat :=
  let left := text.take start
  let right := text.drop stop
  let join := if newline ∈ left ∧ newline ∈ right then [newline] else []
  let kept := beforeLastLine left ++ join
  (kept ++ afterFirstLine right, kept.length)

theorem afterFirstLine_length (text : List Char) : (afterFirstLine text).length ≤ text.length := by
  have shorter := (List.dropWhile_suffix (fun c : Char => decide (c ≠ newline)) (l := text)).length_le
  simp only [afterFirstLine, List.length_drop]
  omega

@[simp]
theorem deleteLine_remainder (text : List Char) (start stop : Nat) :
    (deleteLine text start stop).1.drop (deleteLine text start stop).2 = afterFirstLine (text.drop stop) := by
  simp [deleteLine]

end ClassProgression.Markup
