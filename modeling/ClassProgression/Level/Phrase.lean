import ClassProgression.Fault

namespace ClassProgression

abbrev Level := UInt32

namespace Level

def defaultHighest : UInt32 := 20

-- Every number whose tens digit is one takes "th": 11th, 112th.
def suffix (n : Nat) : String :=
  if n / 10 % 10 = 1 then "th"
  else match n % 10 with
    | 1 => "st"
    | 2 => "nd"
    | 3 => "rd"
    | _ => "th"

def ordinal (level : Level) : String := Nat.repr level.toNat ++ suffix level.toNat

-- "1st level and again at 5th, 7th, and 11th level". Levels are phrased in the order given.
def phrase (levels : List Level) : Except TagFault String :=
  match levels.map ordinal with
  | [] => .error .noLevels
  | [only] => .ok (only ++ " level")
  | [first, second] => .ok (first ++ " level and again at " ++ second ++ " level")
  | [first, second, third] => .ok (first ++ " level and again at " ++ second ++ " and " ++ third ++ " level")
  | first :: more =>
      .ok (first ++ " level and again at " ++ ", ".intercalate more.dropLast ++ ", and " ++
        more.getLastD "" ++ " level")

def sorted (levels : List Level) : List Level := levels.mergeSort fun left right => decide (left ≤ right)

theorem sorted_ascending (levels : List Level) : (sorted levels).Pairwise (· ≤ ·) := by
  have ordered := @List.pairwise_mergeSort Level (fun left right => decide (left ≤ right))
    (by simpa using fun _ _ _ => UInt32.le_trans) (by simpa using UInt32.le_total) levels
  simpa [sorted] using ordered

end Level

end ClassProgression
