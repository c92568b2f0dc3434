import ClassProgression.Toml.Lexical

namespace ClassProgression.Toml

def simpleEscape? : Char → Option Char
  | 'b' => some '\x08'
  | 't' => some '\t'
  | 'n' => some '\n'
  | 'f' => some '\x0c'
  | 'r' => some '\r'
  | '"' => some '"'
  | '\\' => some '\\'
  | _ => none

def codePoint? (count : Nat) (input : List Char) : Option (Char × List Char) :=
  let digits := input.take count
  let number := natOfDigits 16 digits
  if digits.length = count ∧ digits.all isHexDigit ∧ number.isValidChar then
    some (Char.ofNat number, input.drop count)
  else none

def escape? : List Char → Option (Char × List Char)
  | 'u' :: rest => codePoint? 4 rest
  | 'U' :: rest => codePoint? 8 rest
  | c :: rest => (simpleEscape? c).map fun meant => (meant, rest)
  | [] => none

theorem codePoint_length (count : Nat) (input : List Char) (c : Char) (rest : List Char)
    (found : codePoint? count input = some (c, rest)) : rest.length ≤ input.length := by
  simp only [codePoint?] at found
  split at found
  · cases found
    simp
  · cases found

theorem escape_length (input : List Char) (c : Char) (rest : List Char)
    (found : escape? input = some (c, rest)) : rest.length < input.length := by
  unfold escape? at found
  split at found
  · exact Nat.lt_succ_of_le (codePoint_length _ _ _ _ found)
  · exact Nat.lt_succ_of_le (codePoint_length _ _ _ _ found)
  · obtain ⟨meant, _, same⟩ := Option.map_eq_some_iff.mp found
    cases same
    simp
  · cases found

def basicLine? (input : List Char) : Option (List Char × List Char) :=
  match input with
  | [] => none
  | '"' :: rest => some ([], rest)
  | '\\' :: rest =>
      match _found : escape? rest with
      | none => none
      | some (c, next) => (basicLine? next).map fun parts => (c :: parts.1, parts.2)
  | c :: rest => if isPrintable c then (basicLine? rest).map fun parts => (c :: parts.1, parts.2) else none
termination_by input.length
decreasing_by
  · exact Nat.lt_succ_of_lt (escape_length _ _ _ _found)
  · exact Nat.lt_succ_self _

def literalLine? : List Char → Option (List Char × List Char)
  | [] => none
  | '\'' :: rest => some ([], rest)
  | c :: rest => if isPrintable c then (literalLine? rest).map fun parts => (c :: parts.1, parts.2) else none

-- Whether a backslash in front of this text ends its line.
def endsLine (input : List Char) : Bool := (newline? (skipBlank input)).isSome

def isGap (c : Char) (rest : List Char) : Bool := isBlank c || c == '\n' || (c == '\r' && rest.head? == some '\n')

-- Basic text on several lines, behind its opening marks. Behind a backslash at the end of a line
-- everything up to the next character that is no gap is left out. One or two quotes in front of the
-- closing marks belong to the text.
def basicLines? (trimming : Bool) (input : List Char) : Option (List Char × List Char) :=
  match input with
  | [] => none
  | '"' :: '"' :: '"' :: '"' :: '"' :: rest => some (['"', '"'], rest)
  | '"' :: '"' :: '"' :: '"' :: rest => some (['"'], rest)
  | '"' :: '"' :: '"' :: rest => some ([], rest)
  | '\\' :: rest =>
      if endsLine rest then basicLines? true rest
      else match _found : escape? rest with
        | none => none
        | some (c, next) => (basicLines? false next).map fun parts => (c :: parts.1, parts.2)
  | c :: rest =>
      if trimming && isGap c rest then basicLines? true rest
      else if c = '\r' ∧ rest.head? = some '\n' then basicLines? false rest
      else if c = '\n' ∨ isPrintable c then
        (basicLines? false rest).map fun parts => (c :: parts.1, parts.2)
      else none
termination_by input.length
decreasing_by
  · exact Nat.lt_succ_self _
  · exact Nat.lt_succ_of_lt (escape_length _ _ _ _found)
  · exact Nat.lt_succ_self _
  · exact Nat.lt_succ_self _
  · exact Nat.lt_succ_self _

def literalLines? : List Char → Option (List Char × List Char)
  | [] => none
  | '\'' :: '\'' :: '\'' :: '\'' :: '\'' :: rest => some (['\'', '\''], rest)
  | '\'' :: '\'' :: '\'' :: '\'' :: rest => some (['\''], rest)
  | '\'' :: '\'' :: '\'' :: rest => some ([], rest)
  | c :: rest =>
      if c = '\r' ∧ rest.head? = some '\n' then literalLines? rest
      else if c = '\n' ∨ isPrintable c then
        (literalLines? rest).map fun parts => (c :: parts.1, parts.2)
      else none

-- A line end right behind the opening marks is left out.
def dropLineEnd (input : List Char) : List Char := (newline? input).getD input

def quoted? (input : List Char) : Option (List Char × List Char) :=
  match input with
  | '"' :: '"' :: '"' :: rest => basicLines? false (dropLineEnd rest)
  | '"' :: rest => basicLine? rest
  | '\'' :: '\'' :: '\'' :: rest => literalLines? (dropLineEnd rest)
  | '\'' :: rest => literalLine? rest
  | _ => none

end ClassProgression.Toml
