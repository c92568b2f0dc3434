import ClassProgression.Cell.Basic
import ClassProgression.Level.Phrase

namespace ClassProgression

inductive Severity where
  | debug
  | warn
deriving DecidableEq

inductive Notice where
  | registered (count : Nat)
  | levelDropped (level : Level) (slug : String) (maxLevel offset : UInt32)
  | applying (slug : String) (rows : Nat) (className : String)
  | merged (rows : Nat)
  | describing (slug className : String)
  -- A group cannot name features.
  | groupSkipped (column slug : String) (level : Level)
  | cellReplaced (slug : String) (previous : Cell) (column : String) (level : Level)
deriving DecidableEq

namespace Notice

def severity : Notice → Severity
  | .groupSkipped .. => .warn
  | .cellReplaced .. => .warn
  | _ => .debug

def message : Notice → String
  | .registered count => "Registered " ++ Nat.repr count ++ " features"
  | .levelDropped level slug maxLevel offset =>
      "Dropping level " ++ Nat.repr level.toNat ++ " of '" ++ slug ++ "': outside 1..=" ++
        Nat.repr maxLevel.toNat ++ " after offset " ++ Nat.repr offset.toNat
  | .applying slug rows className =>
      "Applying '" ++ slug ++ "' (" ++ Nat.repr rows ++ " rows) to '" ++ className ++ "'"
  | .merged rows => "Merged table has " ++ Nat.repr rows ++ " rows"
  | .describing slug className => "Describing '" ++ slug ++ "' for '" ++ className ++ "'"
  | .groupSkipped column slug level =>
      "Skipping grouped '" ++ column ++ "' cell of '" ++ slug ++ "' at level " ++ Nat.repr level.toNat
  | .cellReplaced slug previous column level =>
      "'" ++ slug ++ "' replaces " ++ previous.display ++ " with a grouped value in column '" ++
        column ++ "' at level " ++ Nat.repr level.toNat

end Notice

end ClassProgression
