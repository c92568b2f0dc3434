import ClassProgression.Integer.Range
import ClassProgression.Level.Phrase

namespace ClassProgression.Command

structure TableOptions where
  bundle : String
  className : String
  offset : UInt32 := 0
  maxLevel : Option UInt32 := none
  summary : Bool := false
deriving DecidableEq

structure DescribeOptions where
  bundle : String
  className : String
  slug : Option String := none
  json : Bool := false
deriving DecidableEq

inductive Action where
  | table (options : TableOptions)
  | merge (paths : List String)
  | describe (options : DescribeOptions)
  | levels (levels : List Level)
deriving DecidableEq

structure Invocation where
  action : Action
  verbose : Bool := false
  settingsPath : Option String := none
deriving DecidableEq

-- Help is left out: a line that asks for it, by `--help`, `-h` or `help`, makes up no request.
inductive Request where
  | version
  | invoke (invocation : Invocation)
deriving DecidableEq

-- Options that stand alone, options that take a value, and letters for some of the former. Behind a
-- final option nothing is read any more.
structure Vocabulary where
  flags : List String
  valued : List String
  letters : List (Char × String)
  final : List String := []

inductive Word where
  | flag (name : String)
  | option (name value : String)
  | plain (text : String)
deriving DecidableEq

def cluster? (vocabulary : Vocabulary) : List Char → Option (List Word)
  | [] => some []
  | letter :: rest => do
      let name ← vocabulary.letters.lookup letter
      if name ∈ vocabulary.final then return [.flag name]
      else return .flag name :: (← cluster? vocabulary rest)

-- Whether a word is an option; a lone dash is not.
def looksLikeOption (text : List Char) : Bool := text.head? == some '-' && text.length != 1

def longOption? (vocabulary : Vocabulary) (name : String) (attached : Option String) (rest : List String) :
    Option (Word × List String) :=
  if name ∈ vocabulary.flags then
    if attached.isNone then some (.flag name, rest) else none
  else if name ∈ vocabulary.valued then
    match attached, rest with
    | some value, _ => some (.option name value, rest)
    | none, value :: rest => if looksLikeOption value.toList then none else some (.option name value, rest)
    | none, [] => none
  else none

def splitAttached (text : List Char) : String × Option String :=
  (String.ofList (text.takeWhile (· ≠ '=')),
    match text.dropWhile (· ≠ '=') with
    | [] => none
    | _ :: value => some (String.ofList value))

def nextWords? (vocabulary : Vocabulary) (first : String) (rest : List String) : Option (List Word × List String) :=
  match first.toList with
  | '-' :: '-' :: name =>
      let (name, attached) := splitAttached name
      (longOption? vocabulary name attached rest).map fun parts => ([parts.1], parts.2)
  | ['-'] => some ([.plain first], rest)
  | '-' :: letters => (cluster? vocabulary letters).map fun words => (words, rest)
  | _ => some ([.plain first], rest)

theorem longOption_length (vocabulary : Vocabulary) (name : String) (attached : Option String)
    (rest : List String) (word : Word) (left : List String)
    (found : longOption? vocabulary name attached rest = some (word, left)) : left.length ≤ rest.length := by
  unfold longOption? at found
  grind

theorem nextWords_length (vocabulary : Vocabulary) (first : String) (rest : List String) (words : List Word)
    (left : List String) (found : nextWords? vocabulary first rest = some (words, left)) :
    left.length ≤ rest.length := by
  unfold nextWords? at found
  split at found
  · obtain ⟨parts, option, same⟩ := Option.map_eq_some_iff.mp found
    cases same
    exact longOption_length _ _ _ _ parts.1 parts.2 option
  · cases found
    exact Nat.le_refl _
  · obtain ⟨_, _, same⟩ := Option.map_eq_some_iff.mp found
    cases same
    exact Nat.le_refl _
  · cases found
    exact Nat.le_refl _

def words? (vocabulary : Vocabulary) (line : List String) : Option (List Word) :=
  match line with
  | [] => some []
  | first :: rest =>
      if first = "--" then some (rest.map .plain)
      else match _found : nextWords? vocabulary first rest with
        | none => none
        | some (words, left) => (words? vocabulary left).map (words ++ ·)
termination_by line.length
decreasing_by exact Nat.lt_succ_of_le (nextWords_length _ _ _ _ _ _found)

namespace Word

def name? : Word → Option String
  | .flag name => some name
  | .option name _ => some name
  | .plain _ => none

def plain? : Word → Option String
  | .plain text => some text
  | _ => none

end Word

def noneRepeated (words : List Word) : Bool := decide (words.filterMap Word.name?).Nodup

def hasFlag (words : List Word) (name : String) : Bool := words.any fun word => decide (word = .flag name)

def value? (words : List Word) (name : String) : Option String :=
  words.findSome? fun word =>
    match word with
    | .option other value => if other = name then some value else none
    | _ => none

def plainWords (words : List Word) : List String := words.filterMap Word.plain?

-- A whole number below two to the 32nd, with or without a sign and zeros in front.
def number? (text : String) : Option UInt32 :=
  let (negative, digits) := match text.toList with
    | '-' :: rest => (true, rest)
    | '+' :: rest => (false, rest)
    | all => (false, all)
  let magnitude := digits.foldl (fun n c => n * 10 + (c.toNat - '0'.toNat)) 0
  if digits.isEmpty ∨ ¬ digits.all (fun c => '0' ≤ c && c ≤ '9') then none
  else Integer.unsigned32? (if negative then -(magnitude : Int) else magnitude)

def path? (text : String) : Option String := if text.isEmpty then none else some text

def optional? (read : String → Option α) (given : Option String) : Option (Option α) :=
  match given with
  | none => some none
  | some text => (read text).map some

def commonFlags : List String := ["verbose"]
def commonValued : List String := ["config"]
def commonLetters : List (Char × String) := [('v', "verbose")]

def vocabularyOf (flags valued : List String) : Vocabulary :=
  {flags := commonFlags ++ flags, valued := commonValued ++ valued, letters := commonLetters}

def tableAction? (words : List Word) : Option Action := do
  let bundle ← (value? words "features").bind path?
  let className ← value? words "class"
  let offset ← optional? number? (value? words "offset")
  let maxLevel ← optional? number? (value? words "max-level")
  if plainWords words ≠ [] then none
  else return .table ⟨bundle, className, offset.getD 0, maxLevel, hasFlag words "summary"⟩

def mergeAction? (words : List Word) : Option Action := do
  let paths ← (plainWords words).mapM path?
  if paths.isEmpty then none else return .merge paths

def describeAction? (words : List Word) : Option Action := do
  let bundle ← (value? words "features").bind path?
  let className ← value? words "class"
  if plainWords words ≠ [] then none
  else return .describe ⟨bundle, className, value? words "feature", hasFlag words "json"⟩

def levelsAction? (words : List Word) : Option Action := do
  let levels ← (plainWords words).mapM number?
  if levels.isEmpty then none else return .levels levels

def command? (name : String) : Option (Vocabulary × (List Word → Option Action)) :=
  match name with
  | "table" => some (vocabularyOf ["summary"] ["features", "class", "offset", "max-level"], tableAction?)
  | "merge" => some (vocabularyOf [] [], mergeAction?)
  | "describe" => some (vocabularyOf ["json"] ["features", "class", "feature"], describeAction?)
  | "levels" => some (vocabularyOf [] [], levelsAction?)
  | _ => none

def leadingVocabulary : Vocabulary where
  flags := commonFlags ++ ["version"]
  valued := commonValued
  letters := commonLetters ++ [('V', "version")]
  final := ["version"]

-- The settings path of the command wins over one in front of it, and both over the environment's, which
-- is asked for wherever one of the two is missing.
def invocation? (environment : Option String) (leading : List Word) (name : String) (line : List String) :
    Option Invocation := do
  let (vocabulary, action?) ← command? name
  let words ← words? vocabulary line
  let action ← action? words
  let before ← optional? path? (value? leading "config")
  let behind ← optional? path? (value? words "config")
  let around ← if before.isSome && behind.isSome then some none else optional? path? environment
  if noneRepeated words then
    return ⟨action, hasFlag leading "verbose" || hasFlag words "verbose", (behind.or before).or around⟩
  else none

-- A request for the version is met where it stands, if everything in front of it is in order.
def inOrder (words : List Word) : Bool :=
  noneRepeated words && (optional? path? (value? words "config")).isSome

def upToVersion (words : List Word) : List Word := words.takeWhile fun word => decide (word ≠ .flag "version")

def requestFrom? (environment : Option String) (leading : List Word) (line : List String) : Option Request :=
  match line with
  | [] => none
  | first :: rest =>
      if first = "--" then none
      else match _found : nextWords? leadingVocabulary first rest with
        | none => none
        | some ([.plain name], left) => (invocation? environment leading name left).map .invoke
        | some (words, left) =>
            let before := leading ++ upToVersion words
            if ¬ inOrder before then none
            else if hasFlag words "version" then some .version
            else requestFrom? environment before left
termination_by line.length
decreasing_by exact Nat.lt_succ_of_le (nextWords_length _ _ _ _ _ _found)

def request? (environment : Option String) (line : List String) : Option Request := requestFrom? environment [] line

end ClassProgression.Command
