namespace ClassProgression.Markup.Bytes

def newline : UInt8 := 10

def firstNewline? (text : List UInt8) : Option Nat := text.findIdx? (· == newline)

def lastNewline? (text : List UInt8) : Option Nat :=
  (text.reverse.findIdx? (· == newline)).map fun index => text.length - (index + 1)

def upper? (text : List UInt8) : Option (List UInt8) := (lastNewline? text).map fun index => text.take index

def lower? (text : List UInt8) : Option (List UInt8) := (firstNewline? text).map fun index => text.drop (index + 1)

-- Removes the line that holds the bytes from `start` to `stop`. The position returned stands right before the
-- first line after the removed one.
def deleteLine (text : List UInt8) (start stop : Nat) : List UInt8 × Nat :=
  let upper := upper? (text.take start)
  let lower := lower? (text.drop stop)
  let join := if upper.isSome && lower.isSome then [newline] else []
  (upper.getD [] ++ join ++ lower.getD [], (upper.getD []).length + join.length)

end ClassProgression.Markup.Bytes
