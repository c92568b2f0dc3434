import ClassProgression.Proofs.Json.Numeral
import ClassProgression.Proofs.Toml.Quoted

namespace ClassProgression.Toml

section Numbers

theorem isDigit_of_mem (n : Nat) (c : Char) (member : c ∈ Nat.toDigits 10 n) : isDigit c :=
  Json.isDigit_of_mem_toDigits n c member

@[simp]
theorem natOfDigits_toDigits (n : Nat) : natOfDigits 10 (Nat.toDigits 10 n) = n := by
  have decimal : ∀ digits : List Char, (∀ c ∈ digits, isDigit c) → ∀ start,
      digits.foldl (fun n c => n * 10 + digitValue c) start =
        digits.foldl (fun n c => n * 10 + Decimal.digitValue c) start := by
    intro digits each
    induction digits with
    | nil => exact fun _ => rfl
    | cons c tail ih =>
        intro start
        have value : digitValue c = Decimal.digitValue c := if_pos (each c List.mem_cons_self)
        rw [List.foldl_cons, List.foldl_cons, value, ih fun d member => each d (List.mem_cons_of_mem c member)]
  exact (decimal _ (isDigit_of_mem n) 0).trans (Json.natOfDigits_toDigits n)

variable (digits : List Char) (each : ∀ c ∈ digits, isDigit c) (rest : List Char)
include each

theorem moreDigits?_digits : moreDigits? isDigit (digits ++ '\n' :: rest) = some (digits, '\n' :: rest) := by
  induction digits with
  | nil => simp [moreDigits?, isDigit]
  | cons c tail ih =>
      have digit := each c List.mem_cons_self
      have behind := ih fun d member => each d (List.mem_cons_of_mem c member)
      have noScore : c ≠ '_' := by rintro rfl; cases digit
      rw [List.cons_append, moreDigits?.eq_def]
      split <;> simp_all

theorem digits?_digits (inhabited : digits ≠ []) : digits? isDigit (digits ++ '\n' :: rest) = some (digits, '\n' :: rest) := by
  cases digits with
  | nil => exact absurd rfl inhabited
  | cons c tail =>
      have behind := moreDigits?_digits tail (fun d member => each d (List.mem_cons_of_mem c member)) rest
      simp [digits?, each c List.mem_cons_self, behind]

-- Digits that have been counted off leave digits or the end of the line.
theorem fixedDigits?_digits (count number : Nat) (left : List Char)
    (found : fixedDigits? count (digits ++ '\n' :: rest) = some (number, left)) :
    ∀ c ∈ left.head?, isDigit c ∨ c = '\n' := by
  simp only [fixedDigits?] at found
  split at found
  · rename_i counted
    cases found
    by_cases within : count ≤ digits.length
    · rw [List.drop_append_of_le_length within]
      cases more : digits.drop count with
      | nil => rintro c ⟨⟩; exact .inr rfl
      | cons d tail =>
          rintro c ⟨⟩
          exact .inl (each d (List.mem_of_mem_drop (more ▸ List.mem_cons_self)))
    · -- The end of the line would have been counted as a digit.
      obtain ⟨beyond, length⟩ := Nat.exists_eq_add_of_lt (Nat.lt_of_not_le within)
      have taken : '\n' ∈ (digits ++ '\n' :: rest).take count := by
        rw [List.take_append, length, Nat.add_assoc, Nat.add_sub_cancel_left]
        exact List.mem_append_right _ List.mem_cons_self
      exact absurd (List.all_eq_true.mp counted.2 _ taken) (by decide)
  · cases found

theorem mark?_behind (mark : Char) (noDigit : isDigit mark = false) (noNewline : mark ≠ '\n') (count number : Nat)
    (left : List Char) (found : fixedDigits? count (digits ++ '\n' :: rest) = some (number, left)) :
    mark? mark left = none := by
  have behind := fixedDigits?_digits digits each rest count number left found
  cases left with
  | nil => rfl
  | cons c tail =>
      have other : c ≠ mark := by
        rintro rfl
        rcases behind c rfl with digit | newline
        · rw [noDigit] at digit
          cases digit
        · exact noNewline newline
      exact if_neg other

theorem date?_digits : date? (digits ++ '\n' :: rest) = none := by
  cases found : fixedDigits? 4 (digits ++ '\n' :: rest) with
  | none => simp [date?, found]
  | some parts =>
      have stop := mark?_behind digits each rest '-' rfl (by decide) 4 parts.1 parts.2 found
      simp [date?, found, stop]

theorem time?_digits : time? (digits ++ '\n' :: rest) = none := by
  cases found : fixedDigits? 2 (digits ++ '\n' :: rest) with
  | none => simp [time?, hourMinute?, bounded?, found]
  | some parts =>
      have stop := mark?_behind digits each rest ':' rfl (by decide) 2 parts.1 parts.2 found
      by_cases within : parts.1 ≤ 23 <;> simp [time?, hourMinute?, bounded?, found, within, stop]

theorem dateTime?_digits : dateTime? (digits ++ '\n' :: rest) = none := by
  simp [dateTime?, date?_digits digits each rest, time?_digits digits each rest]

end Numbers

section Words

variable (number : UInt32) (rest : List Char)

theorem sign_digit (c : Char) (tail : List Char) (digit : isDigit c) : sign (c :: tail) = (false, c :: tail) := by
  unfold sign
  split
  · rename_i same; rw [(List.cons.inj same).1] at digit; cases digit
  · rename_i same; rw [(List.cons.inj same).1] at digit; cases digit
  · rfl

theorem decimal?_toDigits (n : Nat) :
    decimal? (Nat.toDigits 10 n ++ '\n' :: rest) = some ((false, Nat.toDigits 10 n), '\n' :: rest) := by
  have each := isDigit_of_mem n
  have read := digits?_digits _ each rest Nat.toDigits_ne_nil
  cases digits : Nat.toDigits 10 n with
  | nil => exact absurd digits Nat.toDigits_ne_nil
  | cons c tail =>
      rw [digits] at each read
      have unsigned : sign (c :: tail ++ '\n' :: rest) = (false, c :: tail ++ '\n' :: rest) :=
        sign_digit c _ (each c List.mem_cons_self)
      simp only [decimal?, unsigned]
      split
      · rename_i zero
        obtain ⟨rfl, _⟩ := List.cons.inj zero
        have none := Json.toDigits_eq_zero_cons n tail digits
        subst none
        simp_all
      · rw [read]
        rfl

theorem fits?_word : fits? (number.toNat : Int) = some (.integer (Int64.ofNat number.toNat)) := by
  have small : number.toNat < 2 ^ 63 := Nat.lt_trans number.toNat_lt (by decide)
  have same := Integer.signed64_toInt (Int64.ofNat number.toNat)
  rw [Int64.toInt_ofNat_of_lt small] at same
  rw [fits?, same]
  rfl

theorem integer?_word : integer? (Nat.toDigits 10 number.toNat ++ '\n' :: rest) =
    some (.integer (Int64.ofNat number.toNat), '\n' :: rest) := by
  have each := isDigit_of_mem number.toNat
  have decimal := decimal?_toDigits rest number.toNat
  have value := natOfDigits_toDigits number.toNat
  have second : ∀ c d more, Nat.toDigits 10 number.toNat ++ '\n' :: rest = c :: d :: more → isDigit d ∨ d = '\n' := by
    intro c d more same
    cases digits : Nat.toDigits 10 number.toNat with
    | nil => exact absurd digits Nat.toDigits_ne_nil
    | cons first tail =>
        rw [digits] at same each
        have behind := (List.cons.inj same).2
        cases tail with
        | nil => exact .inr (List.cons.inj behind).1.symm
        | cons next others =>
            exact .inl ((List.cons.inj behind).1 ▸ each next (List.mem_cons_of_mem first List.mem_cons_self))
  unfold integer?
  split
  · rename_i same; exact absurd (second _ _ _ same) (by decide)
  · rename_i same; exact absurd (second _ _ _ same) (by decide)
  · rename_i same; exact absurd (second _ _ _ same) (by decide)
  · simp [decimal, value, fits?_word]

theorem value?_number (depth : Nat) : value? depth (Nat.toDigits 10 number.toNat ++ '\n' :: rest) =
    some (.integer (Int64.ofNat number.toNat), '\n' :: rest) := by
  have each := isDigit_of_mem number.toNat
  have decimal := decimal?_toDigits rest number.toNat
  have dateTime := dateTime?_digits _ each rest
  have float : float? (Nat.toDigits 10 number.toNat ++ '\n' :: rest) = none := by
    simp [float?, decimal, isExponentMark, fraction?]
  have integer := integer?_word number rest
  cases digits : Nat.toDigits 10 number.toNat with
  | nil => exact absurd digits Nat.toDigits_ne_nil
  | cons c tail =>
      rw [digits] at each dateTime float integer
      have digit := each c List.mem_cons_self
      have other (d : Char) (noDigit : isDigit d = false) : c ≠ d := by
        rintro rfl
        rw [noDigit] at digit
        cases digit
      have special : specialFloat? (c :: tail ++ '\n' :: rest) = none := by
        simp [specialFloat?, sign_digit c _ digit, other 'i' rfl, other 'n' rfl]
      have plain : plainValue? (c :: tail ++ '\n' :: rest) = some (.integer (Int64.ofNat number.toNat), '\n' :: rest) := by
        unfold plainValue?
        split
        · exact absurd (List.cons.inj (by assumption)).1 (other '"' rfl)
        · exact absurd (List.cons.inj (by assumption)).1 (other '\'' rfl)
        · exact absurd (List.cons.inj (by assumption)).1 (other 't' rfl)
        · exact absurd (List.cons.inj (by assumption)).1 (other 'f' rfl)
        · rw [dateTime, float, special, integer]
          rfl
      unfold value?
      split
      · exact absurd (List.cons.inj (by assumption)).1 (other '[' rfl)
      · exact absurd (List.cons.inj (by assumption)).1 (other '\x7b' rfl)
      · exact plain

end Words

theorem writeText_head (text : List Char) : ∃ tail, writeText text = '"' :: tail ∨ writeText text = '\'' :: tail := by
  simp only [writeText]
  split_ifs
  · exact ⟨_, .inl rfl⟩
  · exact ⟨_, .inr rfl⟩
  · exact ⟨_, .inl rfl⟩
  · exact ⟨_, .inr rfl⟩
  · exact ⟨_, .inl rfl⟩
  · exact ⟨_, .inl rfl⟩

theorem value?_text (depth : Nat) (text rest : List Char) : value? depth (writeText text ++ '\n' :: rest) =
    some (.text (String.ofList text), '\n' :: rest) := by
  have read := quoted?_writeText text ('\n' :: rest) (by rintro c ⟨⟩; decide)
  obtain ⟨tail, chars | chars⟩ := writeText_head text
  all_goals
    rw [chars, List.cons_append] at read ⊢
    cases depth <;> simp [value?, plainValue?, read]

section Keys

theorem skipBlank_of_head (input : List Char) (solid : ∀ c ∈ input.head?, isBlank c = false) :
    skipBlank input = input := by
  cases input with
  | nil => rfl
  | cons c tail => simp [skipBlank, solid c rfl]

theorem isBlank_of_isBareKeyChar (c : Char) (bare : isBareKeyChar c) : isBlank c = false := by
  refine Bool.eq_false_iff.mpr fun blank => ?_
  simp only [isBlank, Bool.or_eq_true, beq_iff_eq] at blank
  rcases blank with rfl | rfl <;> cases bare

variable (fuel : Nat) (chars rest : List Char) (part : String)
  (solid : ∀ c ∈ (chars ++ rest).head?, isBlank c = false) (read : keyPart? (chars ++ rest) = some (part, rest))
include solid read

theorem keyParts?_last (left : List Char) (skipped : skipBlank rest = left) (noDot : ∀ c ∈ left.head?, c ≠ '.') :
    keyParts? (fuel + 1) (chars ++ rest) = some ([part], left) := by
  rw [keyParts?, skipBlank_of_head _ solid, read]
  subst skipped
  simp only [Option.bind_eq_bind, Option.bind_some]
  split
  · rename_i dot
    rw [dot] at noDot
    exact absurd rfl (noDot '.' rfl)
  · rfl

theorem keyParts?_more (more : List Char) (dot : rest = '.' :: more) :
    keyParts? (fuel + 1) (chars ++ rest) = (keyParts? fuel more).map fun parts => (part :: parts.1, parts.2) := by
  rw [keyParts?, skipBlank_of_head _ solid, read]
  subst dot
  rfl

end Keys

structure Bare (name : List Char) : Prop where
  inhabited : name ≠ []
  each : ∀ c ∈ name, isBareKeyChar c

theorem Bare.head (name : List Char) (bare : Bare name) (rest : List Char) :
    ∃ c tail, name ++ rest = c :: tail ∧ isBareKeyChar c := by
  cases name with
  | nil => exact absurd rfl bare.inhabited
  | cons c tail => exact ⟨c, tail ++ rest, rfl, bare.each c List.mem_cons_self⟩

theorem Bare.solid (name : List Char) (bare : Bare name) (rest : List Char) :
    ∀ c ∈ (name ++ rest).head?, isBlank c = false := by
  obtain ⟨c, tail, chars, own⟩ := bare.head name rest
  rw [chars]
  rintro d ⟨⟩
  exact isBlank_of_isBareKeyChar c own

theorem writeKey_solid (key rest : List Char) : ∀ c ∈ (writeKey key ++ rest).head?, isBlank c = false := by
  simp only [writeKey]
  split_ifs with bare
  · exact Bare.solid key ⟨by rintro rfl; exact bare.1 rfl, List.all_eq_true.mp bare.2⟩ rest
  all_goals rintro c ⟨⟩; rfl

section Parts

variable (name : List Char) (bare : Bare name)
include bare

theorem key?_bare (rest left : List Char) (stop : ∀ c ∈ rest.head?, isBareKeyChar c = false)
    (skipped : skipBlank rest = left) (noDot : ∀ c ∈ left.head?, c ≠ '.') :
    key? (name ++ rest) = some (([], String.ofList name), left) := by
  have parts := keyParts?_last 78 name rest (String.ofList name) (bare.solid name rest)
    (keyPart?_bare name rest bare.inhabited bare.each stop) left skipped noDot
  have limit : depthLimit - 1 = 78 + 1 := rfl
  rw [key?, limit, parts]
  rfl

theorem pair?_written (value : List Char → Option (Value × List Char)) (chars rest : List Char) (content : Value)
    (solid : ∀ c ∈ (chars ++ rest).head?, isBlank c = false) (read : value (chars ++ rest) = some (content, rest)) :
    pair? value (name ++ ' ' :: '=' :: ' ' :: (chars ++ rest)) = some (⟨[], String.ofList name, content⟩, rest) := by
  have key := key?_bare name bare (' ' :: '=' :: ' ' :: (chars ++ rest)) ('=' :: ' ' :: (chars ++ rest))
    (by rintro c ⟨⟩; rfl) rfl (by rintro c ⟨⟩; decide)
  have skipped : skipBlank (' ' :: (chars ++ rest)) = chars ++ rest := skipBlank_of_head _ solid
  simp [pair?, key, skipped, read]

theorem header?_bare (rest : List Char) :
    header? ('[' :: (name ++ ']' :: rest)) = some (⟨[], String.ofList name, false, []⟩, rest) := by
  have key := key?_bare name bare (']' :: rest) (']' :: rest) (by rintro c ⟨⟩; rfl) rfl (by rintro c ⟨⟩; decide)
  obtain ⟨c, tail, chars, own⟩ := bare.head name (']' :: rest)
  have single : c ≠ '[' := by rintro rfl; cases own
  rw [chars] at key ⊢
  simp [header?, single, key]

theorem header?_dotted (key rest : List Char) :
    header? ('[' :: (name ++ '.' :: (writeKey key ++ ']' :: rest))) =
      some (⟨[String.ofList name], String.ofList key, false, []⟩, rest) := by
  have last := keyParts?_last 77 (writeKey key) (']' :: rest) (String.ofList key) (writeKey_solid key _)
    (keyPart?_writeKey key (']' :: rest) (by rintro c ⟨⟩; rfl)) (']' :: rest) rfl (by rintro c ⟨⟩; decide)
  have parts := keyParts?_more 78 name ('.' :: (writeKey key ++ ']' :: rest)) (String.ofList name) (bare.solid name _)
    (keyPart?_bare name _ bare.inhabited bare.each (by rintro c ⟨⟩; rfl)) _ rfl
  have both : key? (name ++ '.' :: (writeKey key ++ ']' :: rest)) =
      some (([String.ofList name], String.ofList key), ']' :: rest) := by
    have limit : depthLimit - 1 = 78 + 1 := rfl
    rw [key?, limit, parts, last]
    rfl
  obtain ⟨c, tail, chars, own⟩ := bare.head name ('.' :: (writeKey key ++ ']' :: rest))
  have single : c ≠ '[' := by rintro rfl; cases own
  rw [chars] at both ⊢
  simp [header?, single, both]

end Parts

-- The line stands at the head of any text that begins with these characters.
structure Heads (line : Line) (chars : List Char) : Prop where
  inhabited : chars ≠ []
  reads : ∀ rest, line? (chars ++ rest) = some (line, rest)

theorem heads_blank : Heads .blank ['\n'] := ⟨List.cons_ne_nil _ _, fun _ => rfl⟩

@[simp]
theorem lineEnd?_newline (rest : List Char) : lineEnd? ('\n' :: rest) = some rest := rfl

theorem heads_header (part : Section) (chars : List Char)
    (read : ∀ rest, header? ('[' :: (chars ++ rest)) = some (part, rest)) :
    Heads (.header part) ('[' :: (chars ++ ['\n'])) := by
  refine ⟨List.cons_ne_nil _ _, fun rest => ?_⟩
  have found := read ('\n' :: rest)
  have line : '[' :: (chars ++ ['\n']) ++ rest = '[' :: (chars ++ '\n' :: rest) := by simp
  have skipped : skipBlank ('[' :: (chars ++ '\n' :: rest)) = '[' :: (chars ++ '\n' :: rest) := rfl
  rw [line, line?, skipped]
  simp [found]

theorem heads_pair (name : List Char) (bare : Bare name) (chars : List Char) (content : Value)
    (solid : ∀ rest, ∀ c ∈ (chars ++ rest).head?, isBlank c = false)
    (read : ∀ rest, value? (depthLimit - 1) (chars ++ '\n' :: rest) = some (content, '\n' :: rest)) :
    Heads (.pair ⟨[], String.ofList name, content⟩) (name ++ ' ' :: '=' :: ' ' :: (chars ++ ['\n'])) := by
  refine ⟨List.append_ne_nil_of_left_ne_nil bare.inhabited _, fun rest => ?_⟩
  have found := pair?_written name bare (value? (depthLimit - 1)) chars ('\n' :: rest) content (solid _) (read rest)
  have line : name ++ ' ' :: '=' :: ' ' :: (chars ++ ['\n']) ++ rest =
      name ++ ' ' :: '=' :: ' ' :: (chars ++ '\n' :: rest) := by simp
  have skipped := skipBlank_of_head _ (bare.solid name (' ' :: '=' :: ' ' :: (chars ++ '\n' :: rest)))
  obtain ⟨c, tail, whole, own⟩ := bare.head name (' ' :: '=' :: ' ' :: (chars ++ '\n' :: rest))
  rw [whole] at found skipped
  rw [line, whole, line?, skipped]
  have other (d : Char) (noKey : isBareKeyChar d = false) : c ≠ d := by
    rintro rfl
    rw [noKey] at own
    cases own
  have noNewline : newline? (c :: tail) = none := by simp [newline?, other '\n' rfl, other '\r' rfl]
  simp [other '#' rfl, other '[' rfl, noNewline, found]

inductive Written : List Line → List Char → Prop where
  | nil : Written [] []
  | cons (line : Line) (chars : List Char) (lines : List Line) (more : List Char) (heads : Heads line chars)
      (behind : Written lines more) : Written (line :: lines) (chars ++ more)

namespace Written

theorem single (line : Line) (chars : List Char) (heads : Heads line chars) : Written [line] chars := by
  simpa using cons line chars [] [] heads .nil

theorem append (lines others : List Line) (chars more : List Char) (first : Written lines chars)
    (second : Written others more) : Written (lines ++ others) (chars ++ more) := by
  induction first with
  | nil => exact second
  | cons line chars lines left heads _ ih =>
      rw [List.append_assoc]
      exact .cons line chars _ _ heads ih

theorem lines? (lines : List Line) (chars : List Char) (written : Written lines chars) (fuel : Nat)
    (enough : chars.length ≤ fuel) : Toml.lines? fuel chars = some lines := by
  induction written generalizing fuel with
  | nil => cases fuel <;> rfl
  | cons line chars lines more heads _ ih =>
      obtain ⟨c, tail, rfl⟩ := List.exists_cons_of_ne_nil heads.inhabited
      simp only [List.length_append, List.length_cons] at enough
      cases fuel with
      | zero => omega
      | succ fuel =>
          have behind := ih fuel (by omega)
          have found := heads.reads more
          rw [List.cons_append] at found ⊢
          simp [Toml.lines?, found, behind]

theorem document? (lines : List Line) (chars : List Char) (written : Written lines chars)
    (noMark : chars.head? ≠ some byteOrderMark) :
    Toml.document? chars = some ⟨(gather lines).1, (gather lines).2⟩ := by
  have read := written.lines? _ _ (chars.length + 1) (Nat.le_succ _)
  have whole : (chars.head? == some byteOrderMark) = false := by simpa using noMark
  simp [Toml.document?, whole, read]

end Written

end ClassProgression.Toml
