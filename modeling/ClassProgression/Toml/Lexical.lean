namespace ClassProgression.Toml

def isBlank (c : Char) : Bool := c == ' ' || c == '\t'

def isDigit (c : Char) : Bool := '0' ≤ c && c ≤ '9'

def isControl (c : Char) : Bool := c.toNat < 32 || c.toNat == 127

-- What a comment or a text on one line may hold as it stands.
def isPrintable (c : Char) : Bool := c == '\t' || !isControl c

def isBareKeyChar (c : Char) : Bool :=
  ('a' ≤ c && c ≤ 'z') || ('A' ≤ c && c ≤ 'Z') || isDigit c || c == '_' || c == '-'

def skipBlank (input : List Char) : List Char := input.dropWhile isBlank

-- A line ends with a line feed, in front of which a carriage return may stand.
def newline? : List Char → Option (List Char)
  | '\n' :: rest => some rest
  | '\r' :: '\n' :: rest => some rest
  | _ => none

def skipComment (input : List Char) : List Char :=
  match input with
  | '#' :: rest => rest.dropWhile isPrintable
  | _ => input

def lineEnd? (input : List Char) : Option (List Char) :=
  match skipComment (skipBlank input) with
  | [] => some []
  | rest => newline? rest

def skipLines : Nat → List Char → List Char
  | 0, input => input
  | fuel + 1, input =>
      match skipComment (skipBlank input) with
      | [] => []
      | rest =>
          match newline? rest with
          | some next => skipLines fuel next
          | none => rest

-- Digits of a kind, with single underscores between them: the digits, and the rest. An underscore
-- that no digit follows is refused.
def moreDigits? (accepts : Char → Bool) : List Char → Option (List Char × List Char)
  | [] => some ([], [])
  | ['_'] => none
  | '_' :: c :: rest =>
      if accepts c then (moreDigits? accepts rest).map fun parts => (c :: parts.1, parts.2) else none
  | c :: rest =>
      if accepts c then (moreDigits? accepts rest).map fun parts => (c :: parts.1, parts.2)
      else some ([], c :: rest)

def digits? (accepts : Char → Bool) (input : List Char) : Option (List Char × List Char) :=
  match input with
  | c :: rest =>
      if accepts c then (moreDigits? accepts rest).map fun parts => (c :: parts.1, parts.2) else none
  | [] => none

def sign (input : List Char) : Bool × List Char :=
  match input with
  | '-' :: rest => (true, rest)
  | '+' :: rest => (false, rest)
  | _ => (false, input)

def digitValue (c : Char) : Nat :=
  if isDigit c then c.toNat - '0'.toNat
  else if 'a' ≤ c && c ≤ 'f' then c.toNat - 'a'.toNat + 10
  else c.toNat - 'A'.toNat + 10

def natOfDigits (base : Nat) (digits : List Char) : Nat :=
  digits.foldl (fun n c => n * base + digitValue c) 0

def isHexDigit (c : Char) : Bool := isDigit c || ('a' ≤ c && c ≤ 'f') || ('A' ≤ c && c ≤ 'F')

end ClassProgression.Toml
