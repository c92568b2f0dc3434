import ClassProgression.Json.Skip
import ClassProgression.Json.Writer
import Mathlib

namespace ClassProgression.Json

def isNumeral (c : Char) : Bool := isDigit c || ['-', '+', '.', 'e', 'E'].contains c

theorem isNumeral_of_endsWord (c : Char) (stop : endsWord c) : isNumeral c = false := by
  simp only [endsWord, isBlank, Bool.or_eq_true, beq_iff_eq, or_assoc] at stop
  rcases stop with rfl | rfl | rfl | rfl | rfl | rfl | rfl <;> rfl

theorem isBlank_of_isNumeral (c : Char) (numeral : isNumeral c) : isBlank c = false := by
  refine Bool.eq_false_iff.mpr fun blank => ?_
  have other := isNumeral_of_endsWord c (by simp [endsWord, blank])
  rw [other] at numeral
  cases numeral

-- The text is over, or goes on with a character that no number and no literal contains.
def Ends (rest : List Char) : Prop := ∀ c ∈ rest.head?, endsWord c

-- What a reader takes is the head of its input, and what follows a word changes nothing about it.
structure Settled (read : List Char → Option (α × List Char)) : Prop where
  suffix : ∀ input found left, read input = some (found, left) → left <:+ input
  append : ∀ input found left rest, Ends rest → read input = some (found, left) →
    read (input ++ rest) = some (found, left ++ rest)

namespace Settled

theorem bind {first : List Char → Option (α × List Char)} {next : α → List Char → Option (β × List Char)}
    (settled : Settled first) (onward : ∀ found, Settled (next found)) :
    Settled fun input => (first input).bind fun parts => next parts.1 parts.2 := by
  refine ⟨fun input found left read => ?_, fun input found left rest ends read => ?_⟩
  · obtain ⟨⟨value, middle⟩, before, behind⟩ := Option.bind_eq_some_iff.mp read
    exact ((onward value).suffix middle found left behind).trans (settled.suffix input value middle before)
  · obtain ⟨⟨value, middle⟩, before, behind⟩ := Option.bind_eq_some_iff.mp read
    simp only [settled.append input value middle rest ends before, Option.bind_some]
    exact (onward value).append middle found left rest ends behind

theorem given (outcome : Option α) : Settled fun input => outcome.bind fun value => some (value, input) := by
  refine ⟨fun input found left read => ?_, fun input found left rest _ read => ?_⟩
  · obtain ⟨value, _, same⟩ := Option.bind_eq_some_iff.mp read
    cases same
    exact List.suffix_refl _
  · obtain ⟨value, held, same⟩ := Option.bind_eq_some_iff.mp read
    cases same
    simp [held]

theorem marked {read outside : List Char → Option (α × List Char)}
    {inside : Char → List Char → Option (α × List Char)} (mark : Char → Prop) (marks : ∀ c, mark c → isNumeral c)
    (settled : ∀ c, Settled (inside c)) (otherwise : Settled outside)
    (behind : ∀ c tail, mark c → read (c :: tail) = inside c tail)
    (unmarked : ∀ input, (∀ c ∈ input.head?, ¬ mark c) → read input = outside input) : Settled read := by
  refine ⟨fun input found left accepted => ?_, fun input found left rest ends accepted => ?_⟩
  · cases input with
    | nil =>
        rw [unmarked [] fun _ first => nomatch first] at accepted
        exact otherwise.suffix [] found left accepted
    | cons c tail =>
        by_cases marking : mark c
        · rw [behind c tail marking] at accepted
          exact ((settled c).suffix tail found left accepted).trans (List.suffix_cons c tail)
        · rw [unmarked (c :: tail) (by rintro _ ⟨⟩; exact marking)] at accepted
          exact otherwise.suffix (c :: tail) found left accepted
  · cases input with
    | nil =>
        rw [unmarked [] fun _ first => nomatch first] at accepted
        have plain : ∀ c ∈ rest.head?, ¬ mark c := fun c first marking => by
          have numeral := marks c marking
          rw [isNumeral_of_endsWord c (ends c first)] at numeral
          cases numeral
        rw [List.nil_append, unmarked rest plain]
        exact otherwise.append [] found left rest ends accepted
    | cons c tail =>
        rw [List.cons_append]
        by_cases marking : mark c
        · rw [behind c _ marking] at accepted ⊢
          exact (settled c).append tail found left rest ends accepted
        · rw [unmarked (c :: _) (by rintro _ ⟨⟩; exact marking)] at accepted ⊢
          exact otherwise.append (c :: tail) found left rest ends accepted

end Settled

section Parts

theorem splitDigits_append (input rest : List Char) (ends : Ends rest) :
    splitDigits (input ++ rest) = ((splitDigits input).1, (splitDigits input).2 ++ rest) := by
  unfold splitDigits
  induction input with
  | nil =>
      cases rest with
      | nil => rfl
      | cons c tail =>
          have noDigit : isDigit c = false := (Bool.or_eq_false_iff.mp (isNumeral_of_endsWord c (ends c rfl))).1
          simp [noDigit]
  | cons c tail ih =>
      by_cases digit : isDigit c
      · simpa [digit] using ih
      · simp [digit]

theorem splitDigits_settled : Settled fun input => some (splitDigits input) := by
  refine ⟨fun input digits left found => ?_, fun input digits left rest ends found => ?_⟩
  · cases found
    exact List.dropWhile_suffix isDigit
  · rw [splitDigits_append input rest ends]
    cases found
    rfl

def readDigits? (input : List Char) : Option (List Char × List Char) :=
  (some (splitDigits input)).bind fun parts =>
    (if parts.1.isEmpty then none else some parts.1).bind fun digits => some (digits, parts.2)

theorem readDigits?_settled : Settled readDigits? :=
  splitDigits_settled.bind fun digits => .given (if digits.isEmpty then none else some digits)

theorem readWhole?_settled : Settled readWhole? := by
  refine ⟨fun input whole left found => ?_, fun input whole left rest ends found => ?_⟩
  · have suffix : (splitDigits input).2 <:+ input := List.dropWhile_suffix isDigit
    simp only [readWhole?] at found
    split at found <;> simp_all
  · simp only [readWhole?, splitDigits_append input rest ends] at found ⊢
    split at found <;> simp_all

theorem readFraction?_settled : Settled readFraction? := by
  have inside : Settled fun input => (readDigits? input).bind fun parts => some (some parts.1, parts.2) :=
    readDigits?_settled.bind fun digits => .given (some (some digits))
  refine .marked (· = '.') (by rintro c rfl; rfl) (fun _ => inside) (.given (some none)) ?_ ?_
  · rintro c tail rfl
    simp only [readFraction?, readDigits?, Option.bind_some]
    split <;> rfl
  · intro input plain
    unfold readFraction?
    split
    · exact absurd rfl (plain '.' rfl)
    · rfl

theorem readSign_settled : Settled fun input => some (readSign input) := by
  refine .marked (fun c => c = '-' ∨ c = '+') (by rintro c (rfl | rfl) <;> rfl) (fun c => .given (some (c == '-')))
    (.given (some false)) ?_ ?_
  · rintro c tail (rfl | rfl) <;> rfl
  · intro input plain
    unfold readSign
    split
    · exact absurd (.inl rfl) (plain '-' rfl)
    · exact absurd (.inr rfl) (plain '+' rfl)
    · rfl

theorem readExponent?_settled : Settled readExponent? := by
  have inside : Settled fun input => (some (readSign input)).bind fun signed =>
      (readDigits? signed.2).bind fun parts => some (some (signed.1, parts.1), parts.2) :=
    readSign_settled.bind fun negative => readDigits?_settled.bind fun digits => .given (some (some (negative, digits)))
  refine .marked (fun c => c = 'e' ∨ c = 'E') (by rintro c (rfl | rfl) <;> rfl) (fun _ => inside)
    (.given (some none)) ?_ ?_
  · intro c tail mark
    simp only [readExponent?, readDigits?, if_pos mark, Option.bind_some]
    split <;> rfl
  · intro input plain
    cases input with
    | nil => rfl
    | cons c tail => exact if_neg (plain c rfl)

end Parts

def readUnsigned? (negative : Bool) (input : List Char) : Option (Spelling × List Char) :=
  (readWhole? input).bind fun whole => (readFraction? whole.2).bind fun fraction =>
    (readExponent? fraction.2).bind fun exponent =>
      some (⟨negative, whole.1, fraction.1, exponent.1⟩, exponent.2)

theorem readUnsigned?_settled (negative : Bool) : Settled (readUnsigned? negative) :=
  readWhole?_settled.bind fun whole => readFraction?_settled.bind fun fraction =>
    readExponent?_settled.bind fun exponent => .given (some (Spelling.mk negative whole fraction exponent))

@[simp]
theorem readSpelling?_minus (input : List Char) : readSpelling? ('-' :: input) = readUnsigned? true input := rfl

theorem readSpelling?_plain (input : List Char) (plain : ∀ c ∈ input.head?, c ≠ '-') :
    readSpelling? input = readUnsigned? false input := by
  cases input with
  | nil => rfl
  | cons c tail => simp [readSpelling?, readUnsigned?, plain c rfl]

theorem readSpelling?_settled : Settled readSpelling? := by
  refine .marked (· = '-') (by rintro c rfl; rfl) (fun _ => readUnsigned?_settled true)
    (readUnsigned?_settled false) ?_ readSpelling?_plain
  rintro c tail rfl
  exact readSpelling?_minus tail

theorem readNumber?_settled : Settled readNumber? :=
  readSpelling?_settled.bind fun spelling => .given spelling.toJson?

def Numeric (chars : List Char) : Prop := ∀ c ∈ chars, isNumeral c

namespace Numeric

theorem nil : Numeric [] := fun _ member => nomatch member

theorem cons (c : Char) (rest : List Char) (numeral : isNumeral c) (numeric : Numeric rest) : Numeric (c :: rest) :=
  List.forall_mem_cons.mpr ⟨numeral, numeric⟩

theorem append (first second : List Char) (left : Numeric first) (right : Numeric second) :
    Numeric (first ++ second) := List.forall_mem_append.mpr ⟨left, right⟩

theorem sublist (chars part : List Char) (numeric : Numeric chars) (within : part.Sublist chars) : Numeric part :=
  fun c member => numeric c (within.subset member)

end Numeric

section Digits

theorem isNumeral_of_isDigit (c : Char) (digit : isDigit c) : isNumeral c := by simp [isNumeral, digit]

theorem isDigit_of_mem_toDigits (n : Nat) (c : Char) (member : c ∈ Nat.toDigits 10 n) : isDigit c := by
  have digit := Nat.isDigit_of_mem_toDigits (by decide) (by decide) member
  simpa [isDigit, Char.isDigit, Char.le_def] using digit

theorem numeric_toDigits (n : Nat) : Numeric (Nat.toDigits 10 n) :=
  fun c member => isNumeral_of_isDigit c (isDigit_of_mem_toDigits n c member)

theorem splitDigits_toDigits (n : Nat) : splitDigits (Nat.toDigits 10 n) = (Nat.toDigits 10 n, []) := by
  have digits := isDigit_of_mem_toDigits n
  exact Prod.ext (List.takeWhile_eq_self_iff.mpr digits) (List.dropWhile_eq_nil_iff.mpr digits)

@[simp]
theorem natOfDigits_toDigits (n : Nat) : natOfDigits (Nat.toDigits 10 n) = n := by
  have value := Nat.ofDigitChars_ten_toDigits (n := n)
  rw [Nat.ofDigitChars_eq_foldl] at value
  simpa [natOfDigits, Decimal.digitValue, Nat.mul_comm] using value

-- Only zero itself begins with a zero.
theorem toDigits_eq_zero_cons (n : Nat) (tail : List Char) (zero : Nat.toDigits 10 n = '0' :: tail) : n = 0 := by
  induction n using Nat.strongRecOn generalizing tail with
  | ind n ih =>
      by_cases small : n < 10
      · rw [Nat.toDigits_of_lt_base small] at zero
        interval_cases n <;> simp_all +decide
      · rw [Nat.toDigits_of_base_le (by decide) (by omega)] at zero
        cases front : Nat.toDigits 10 (n / 10) with
        | nil => exact absurd front Nat.toDigits_ne_nil
        | cons c more =>
            rw [front, List.cons_append] at zero
            have first := (List.cons.inj zero).1
            have none := ih (n / 10) (by omega) more (first ▸ front)
            omega

theorem readUnsigned?_toDigits (negative : Bool) (n : Nat) :
    readUnsigned? negative (Nat.toDigits 10 n) = some (⟨negative, Nat.toDigits 10 n, none, none⟩, []) := by
  have whole : readWhole? (Nat.toDigits 10 n) = some (Nat.toDigits 10 n, []) := by
    simp only [readWhole?, splitDigits_toDigits]
    split
    · rename_i empty
      exact absurd empty Nat.toDigits_ne_nil
    · rfl
    · rename_i tail several zero
      have none := toDigits_eq_zero_cons n tail zero
      subst none
      simp_all
    · rfl
  simp [readUnsigned?, whole, readFraction?, readExponent?]

theorem readSpelling?_toDigits (n : Nat) :
    readSpelling? (Nat.toDigits 10 n) = some (⟨false, Nat.toDigits 10 n, none, none⟩, []) := by
  cases digits : Nat.toDigits 10 n with
  | nil => exact absurd digits Nat.toDigits_ne_nil
  | cons c tail =>
      have digit := isDigit_of_mem_toDigits n c (digits ▸ List.mem_cons_self)
      rw [readSpelling?_plain (c :: tail) (by rintro _ ⟨⟩ rfl; cases digit), ← digits]
      exact readUnsigned?_toDigits false n

theorem toJson?_digits (negative : Bool) (n : Nat) (value : Int64)
    (number : value.toInt = if negative then -(n : Int) else n) (zero : negative → n ≠ 0) :
    Spelling.toJson? ⟨negative, Nat.toDigits 10 n, none, none⟩ = some (.integer value) := by
  simp only [Spelling.toJson?, natOfDigits_toDigits, ← number]
  rw [if_neg (fun both => zero both.1 both.2), Integer.signed64_toInt]

theorem integer_chars (value : Int64) : ∃ n, (Int.repr value.toInt).toList = Nat.toDigits 10 n ∧ value.toInt = n ∨
    (Int.repr value.toInt).toList = '-' :: Nat.toDigits 10 n ∧ value.toInt = -(n : Int) ∧ n ≠ 0 := by
  cases number : value.toInt with
  | ofNat n => exact ⟨n, .inl ⟨Nat.toList_repr, rfl⟩⟩
  | negSucc n => exact ⟨n + 1, .inr ⟨by simp [Int.repr], rfl, n.succ_ne_zero⟩⟩

theorem numeric_integer (value : Int64) : Numeric (Int.repr value.toInt).toList := by
  obtain ⟨n, ⟨chars, _⟩ | ⟨chars, _⟩⟩ := integer_chars value
  · exact chars ▸ numeric_toDigits n
  · exact chars ▸ .cons _ _ rfl (numeric_toDigits n)

theorem readNumber?_integer (value : Int64) :
    readNumber? (Int.repr value.toInt).toList = some (.integer value, []) := by
  obtain ⟨n, ⟨chars, number⟩ | ⟨chars, number, positive⟩⟩ := integer_chars value
  · rw [chars, readNumber?, readSpelling?_toDigits]
    simp [toJson?_digits false n value number (by simp)]
  · rw [chars, readNumber?, readSpelling?_minus, readUnsigned?_toDigits]
    simp [toJson?_digits true n value number fun _ => positive]

end Digits

section Floats

open Decimal

theorem isDigit_shortest (tie : Tie) (significand : Nat) (exponent : Int) (c : Char)
    (member : c ∈ (shortest tie significand exponent).digits) : isDigit c := by
  unfold shortest at member
  split at member
  · rename_i found power _
    refine isDigit_of_mem_toDigits found c (List.mem_reverse.mp ?_)
    exact (List.dropWhile_suffix _).subset (List.mem_reverse.mp member)
  · cases member

theorem numeric_zeros (n : Nat) : Numeric (zeros n) := by
  intro c member
  rw [List.eq_of_mem_replicate member]
  rfl

theorem numeric_positional (keepsPoint : Bool) (d : Digits) (numeric : Numeric d.digits) :
    Numeric (positional keepsPoint d) := by
  unfold positional
  split
  · exact .cons _ _ rfl (.cons _ _ rfl (.append _ _ (numeric_zeros _) numeric))
  · dsimp only
    split
    · refine .append _ _ (.append _ _ numeric (numeric_zeros _)) ?_
      cases keepsPoint with
      | true => exact .cons _ _ rfl (.cons _ _ rfl .nil)
      | false => exact .nil
    · exact .append _ _ (numeric.sublist _ _ (List.take_sublist _ _))
        (.cons _ _ rfl (numeric.sublist _ _ (List.drop_sublist _ _)))

theorem numeric_scientific (d : Digits) (numeric : Numeric d.digits) : Numeric (scientific d) := by
  refine .append _ _ (.append _ _ (numeric.sublist _ _ (List.take_sublist _ _)) ?_)
    (.cons _ _ rfl (.cons _ _ ?_ (numeric_toDigits _)))
  · split
    · exact .nil
    · exact .cons _ _ rfl (numeric.sublist _ _ (List.drop_sublist _ _))
  · split <;> rfl

theorem numeric_spell (layout : Layout) (d : Digits) (numeric : Numeric d.digits) : Numeric (layout.spell d) := by
  unfold Layout.spell
  split
  · exact numeric_positional layout.keepsPoint d numeric
  · exact numeric_scientific d numeric

theorem numeric_write (layout : Layout) (number : Float) (negative : Bool) (significand : Nat) (exponent : Int)
    (finite : Shape.ofBits number.toBits = .finite negative significand exponent) :
    Numeric (layout.write number) := by
  have magnitude : Numeric (if significand = 0 then layout.spell ⟨['0'], 0⟩
      else layout.spell (shortest layout.tie significand exponent)) := by
    split
    · exact numeric_spell layout _ (.cons _ _ rfl .nil)
    · exact numeric_spell layout _ fun c member => isNumeral_of_isDigit c (isDigit_shortest _ _ _ c member)
  simp only [Layout.write, finite]
  cases negative with
  | false => exact magnitude
  | true => exact .cons _ _ rfl magnitude

end Floats

-- What begins like a number is no bracket, no quoted text and no literal.
theorem readValue?_numeral (depth : Nat) (c : Char) (rest : List Char) (numeral : isNumeral c) :
    readValue? depth (c :: rest) = readNumber? (c :: rest) := by
  have noLiteral : readLiteral? (c :: rest) = none := by
    have other : 'n' ≠ c ∧ 't' ≠ c ∧ 'f' ≠ c := by refine ⟨?_, ?_, ?_⟩ <;> (rintro rfl; cases numeral)
    simp [readLiteral?, literals, other]
  have other : c ≠ '[' ∧ c ≠ '\x7b' ∧ c ≠ '"' := by refine ⟨?_, ?_, ?_⟩ <;> (rintro rfl; cases numeral)
  unfold readValue?
  split
  · simp_all
  · simp_all
  · simp_all
  · rw [noLiteral]
    rfl

theorem readValue?_number (depth : Nat) (chars : List Char) (value : Json) (numeric : Numeric chars)
    (read : readNumber? chars = some (value, [])) (rest : List Char) (ends : Ends rest) :
    readValue? depth (chars ++ rest) = some (value, rest) := by
  have behind := readNumber?_settled.append chars value [] rest ends read
  cases chars with
  | nil => cases read
  | cons c tail => exact (readValue?_numeral depth c (tail ++ rest) (numeric c List.mem_cons_self)).trans behind

-- The text of the float is read as the same float.
def Legible (number : Float) : Prop := read? (compact (.float number)) = some (.float number)

namespace Legible

variable (number : Float) (legible : Legible number)
include legible

theorem reads : readChars? (numerals.write number) = some (.float number) := by
  have chars : (compact (.float number)).toList = numerals.write number := String.toList_ofList
  rw [← chars]
  exact legible

theorem numeric : Numeric (numerals.write number) := by
  have read := legible.reads
  cases shape : Decimal.Shape.ofBits number.toBits with
  | finite negative significand exponent => exact numeric_write numerals number negative significand exponent shape
  | nan =>
      simp only [Decimal.Layout.write, shape] at read
      cases read
  | infinite negative =>
      cases negative <;> (simp only [Decimal.Layout.write, shape] at read; cases read)

theorem readNumber? : Json.readNumber? (numerals.write number) = some (.float number, []) := by
  have read := legible.reads
  have numeric := legible.numeric
  have noBlank : ∀ c ∈ numerals.write number, isBlank c = false := fun c member =>
    isBlank_of_isNumeral c (numeric c member)
  cases chars : numerals.write number with
  | nil => rw [chars] at read; cases read
  | cons c rest =>
      rw [chars] at read noBlank
      have numeral := numeric c (chars ▸ List.mem_cons_self)
      rw [readChars?, skipBlank, List.dropWhile_cons_of_neg (by simp [noBlank c List.mem_cons_self]),
        readValue?_numeral maxDepth c rest numeral] at read
      cases found : Json.readNumber? (c :: rest) with
      | none => rw [found] at read; cases read
      | some parts =>
          obtain ⟨value, left⟩ := parts
          simp only [found] at read
          split at read
          · rename_i blank
            cases read
            -- What is left is part of the numeral, so it holds no blanks to pass over.
            have suffix := readNumber?_settled.suffix _ _ left found
            have whole : left = [] := by
              rw [List.isEmpty_iff, skipBlank, List.dropWhile_eq_nil_iff] at blank
              cases left with
              | nil => rfl
              | cons next more =>
                  have isBlank := blank next List.mem_cons_self
                  rw [noBlank next (suffix.subset List.mem_cons_self)] at isBlank
                  cases isBlank
            rw [whole]
          · cases read

end Legible

end ClassProgression.Json
