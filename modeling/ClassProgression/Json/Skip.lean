import ClassProgression.Json.Reader

namespace ClassProgression.Json

-- Goes on behind an opening quote; what is left stands behind the closing one.
def skipText? : List Char → Option (List Char)
  | [] => none
  | '"' :: rest => some rest
  | '\\' :: 'u' :: a :: b :: c :: d :: rest => if (codeUnit? a b c d).isSome then skipText? rest else none
  | '\\' :: c :: rest => if (simpleEscape? c).isSome then skipText? rest else none
  | c :: rest => if c = '\\' ∨ c.toNat < 32 then none else skipText? rest

def endsWord (c : Char) : Bool := isBlank c || c == ',' || c == ']' || c == '\x7d'

def isWord (word : List Char) : Bool :=
  literals.any (fun literal => literal.1 == word) || (readSpelling? word).any fun parts => parts.2.isEmpty

def skipPlain? (input : List Char) : Option (List Char) :=
  match input with
  | '"' :: rest => skipText? rest
  | _ =>
      if isWord (input.takeWhile fun c => !endsWord c) then some (input.dropWhile fun c => !endsWord c)
      else none

def skipName? (input : List Char) : Option (List Char) :=
  match skipBlank input with
  | '"' :: rest =>
      (skipText? rest).bind fun rest =>
        match skipBlank rest with
        | ':' :: rest => some rest
        | _ => none
  | _ => none

inductive Bracket where
  | list
  | object
deriving DecidableEq

def Bracket.closing : Bracket → Char
  | .list => ']'
  | .object => '\x7d'

-- How far a value has been passed over: whether one of its parts has to follow, and the brackets that
-- are open around the place, the innermost first.
structure Passage where
  due : Bool
  opened : List Bracket
deriving DecidableEq

def enter? (opened : List Bracket) (bracket : Bracket) (input : List Char) : Option (Passage × List Char) :=
  match skipBlank input with
  | [] => none
  | c :: rest =>
      if c = bracket.closing then some (⟨false, opened⟩, rest)
      else match bracket with
        | .list => some (⟨true, .list :: opened⟩, input)
        | .object => (skipName? input).map fun rest => (⟨true, .object :: opened⟩, rest)

def begin? (opened : List Bracket) (input : List Char) : Option (Passage × List Char) :=
  match skipBlank input with
  | '[' :: rest => enter? opened .list rest
  | '\x7b' :: rest => enter? opened .object rest
  | plain => (skipPlain? plain).map fun rest => (⟨false, opened⟩, rest)

def leave? (bracket : Bracket) (opened : List Bracket) (input : List Char) : Option (Passage × List Char) :=
  match skipBlank input with
  | [] => none
  | c :: rest =>
      if c = bracket.closing then some (⟨false, opened⟩, rest)
      else if c = ',' then
        match bracket with
        | .list => some (⟨true, .list :: opened⟩, rest)
        | .object => (skipName? rest).map fun rest => (⟨true, .object :: opened⟩, rest)
      else none

theorem skipBlank_length (input : List Char) : (skipBlank input).length ≤ input.length :=
  (List.dropWhile_suffix isBlank).length_le

theorem skipText_length (input rest : List Char) (found : skipText? input = some rest) :
    rest.length < input.length := by
  fun_induction skipText? input <;> simp_all <;> grind

theorem skipPlain_length (input rest : List Char) (found : skipPlain? input = some rest) :
    rest.length < input.length := by
  unfold skipPlain? at found
  split at found
  · exact Nat.lt_succ_of_lt (skipText_length _ _ found)
  · split at found
    · rename_i word
      cases found
      cases input with
      | nil => exact absurd word (by decide)
      | cons c rest =>
          by_cases ends : endsWord c
          · exact absurd word (by simp [ends, isWord, literals, readSpelling?, readWhole?, splitDigits])
          · have shorter := (List.dropWhile_suffix (fun c => !endsWord c) (l := rest)).length_le
            simpa [ends] using Nat.lt_succ_of_le shorter
    · cases found

theorem skipName_length (input rest : List Char) (found : skipName? input = some rest) :
    rest.length < input.length := by
  unfold skipName? at found
  split at found
  · rename_i after quoted
    obtain ⟨behind, skipped, colon⟩ := Option.bind_eq_some_iff.mp found
    split at colon
    · rename_i next colonFirst
      cases colon
      have blank := skipBlank_length input
      have text := skipText_length _ _ skipped
      have gap := skipBlank_length behind
      simp only [quoted, colonFirst, List.length_cons] at blank gap
      omega
    · cases colon
  · cases found

theorem enter_length (opened : List Bracket) (bracket : Bracket) (input : List Char)
    (next : Passage × List Char) (found : enter? opened bracket input = some next) :
    next.2.length ≤ input.length := by
  have blank := skipBlank_length input
  unfold enter? at found
  split at found
  · cases found
  · rename_i c rest first
    simp only [first, List.length_cons] at blank
    split at found
    · cases found
      exact Nat.le_of_lt blank
    · cases bracket with
      | list =>
          cases found
          exact Nat.le_refl _
      | object =>
          obtain ⟨after, named, rfl⟩ := Option.map_eq_some_iff.mp found
          exact Nat.le_of_lt (skipName_length _ _ named)

theorem begin_length (opened : List Bracket) (input : List Char) (next : Passage × List Char)
    (found : begin? opened input = some next) : next.2.length < input.length := by
  have blank := skipBlank_length input
  unfold begin? at found
  split at found
  · rename_i rest first
    have entered := enter_length _ _ _ _ found
    simp only [first, List.length_cons] at blank
    omega
  · rename_i rest first
    have entered := enter_length _ _ _ _ found
    simp only [first, List.length_cons] at blank
    omega
  · obtain ⟨after, plain, rfl⟩ := Option.map_eq_some_iff.mp found
    exact Nat.lt_of_lt_of_le (skipPlain_length _ _ plain) blank

theorem leave_length (bracket : Bracket) (opened : List Bracket) (input : List Char)
    (next : Passage × List Char) (found : leave? bracket opened input = some next) :
    next.2.length < input.length := by
  have blank := skipBlank_length input
  unfold leave? at found
  split at found
  · cases found
  · rename_i c rest first
    simp only [first, List.length_cons] at blank
    split at found
    · cases found
      exact blank
    · split at found
      · cases bracket with
        | list =>
            cases found
            exact blank
        | object =>
            obtain ⟨after, named, rfl⟩ := Option.map_eq_some_iff.mp found
            exact Nat.lt_trans (skipName_length _ _ named) blank
      · cases found

def skipFrom? (due : Bool) (opened : List Bracket) (input : List Char) : Option (List Char) :=
  match due, opened with
  | false, [] => some input
  | false, bracket :: outer =>
      match _found : leave? bracket outer input with
      | none => none
      | some (passage, rest) => skipFrom? passage.due passage.opened rest
  | true, opened =>
      match _found : begin? opened input with
      | none => none
      | some (passage, rest) => skipFrom? passage.due passage.opened rest
termination_by input.length
decreasing_by
  · exact leave_length _ _ _ _ _found
  · exact begin_length _ _ _ _found

def skipValue? (input : List Char) : Option (List Char) := skipFrom? true [] input

def readWanted? (wanted : List String) (input : List Char) : Option (Option (String × Json) × List Char) := do
  let (name, rest) ← readText? input
  match skipBlank rest with
  | ':' :: rest =>
      if name ∈ wanted then
        let (content, rest) ← readValue? (maxDepth - 1) (skipBlank rest)
        return (some (name, content), rest)
      else return (none, ← skipValue? rest)
  | _ => none

-- Reads a record of which only the wanted fields are asked for. What is no object is read as a whole.
def readRecord? (wanted : List String) (input : String) : Option Json :=
  match skipBlank input.toList with
  | '\x7b' :: rest =>
      match readSequence? (readWanted? wanted) '\x7d' rest with
      | some (fields, rest) => if (skipBlank rest).isEmpty then some (.object (fields.filterMap id)) else none
      | none => none
  | _ => read? input

end ClassProgression.Json
