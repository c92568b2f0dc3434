import ClassProgression.Toml.Reader
import ClassProgression.Toml.Writer
import Mathlib

namespace ClassProgression.Toml

theorem controlDigits : ∀ n < 128, n < 32 ∨ n = 127 →
    (['0', '0', upperHexDigit (n / 16), upperHexDigit (n % 16)].all isHexDigit ∧
      natOfDigits 16 ['0', '0', upperHexDigit (n / 16), upperHexDigit (n % 16)] = n) := by decide

theorem codePoint?_control (c : Char) (control : isControl c) (rest : List Char) :
    codePoint? 4 ('0' :: '0' :: upperHexDigit (c.toNat / 16) :: upperHexDigit (c.toNat % 16) :: rest) =
      some (c, rest) := by
  have small : c.toNat < 32 ∨ c.toNat = 127 := by simpa [isControl] using control
  obtain ⟨hex, number⟩ := controlDigits c.toNat (by omega) small
  have taken : ('0' :: '0' :: upperHexDigit (c.toNat / 16) :: upperHexDigit (c.toNat % 16) :: rest).take 4 =
      ['0', '0', upperHexDigit (c.toNat / 16), upperHexDigit (c.toNat % 16)] := rfl
  have valid : c.toNat.isValidChar := c.valid
  simp [codePoint?, taken, hex, number, valid]

-- How a character is written: as it is, or as something that a backslash announces.
inductive Spelled (c : Char) : List Char → Prop where
  | plain (noQuote : c ≠ '"') (noBackslash : c ≠ '\\') (noControl : isControl c = false) : Spelled c [c]
  | escaped (mark : Char) (tail : List Char) (solid : isControl mark = false ∧ mark ≠ ' ')
      (reads : ∀ rest, escape? (mark :: (tail ++ rest)) = some (c, rest)) : Spelled c ('\\' :: mark :: tail)

theorem spelled_escapeChar (c : Char) : Spelled c (escapeChar c) := by
  unfold escapeChar
  split_ifs with quotes backslash newline tab carriage backspace feed control
  · subst quotes; exact .escaped '"' [] (by decide) fun _ => rfl
  · subst backslash; exact .escaped '\\' [] (by decide) fun _ => rfl
  · subst newline; exact .escaped 'n' [] (by decide) fun _ => rfl
  · subst tab; exact .escaped 't' [] (by decide) fun _ => rfl
  · subst carriage; exact .escaped 'r' [] (by decide) fun _ => rfl
  · subst backspace; exact .escaped 'b' [] (by decide) fun _ => rfl
  · subst feed; exact .escaped 'f' [] (by decide) fun _ => rfl
  · exact .escaped 'u' _ (by decide) fun rest => codePoint?_control c control rest
  · exact .plain quotes backslash (by simpa using control)

section BasicLine

theorem basicLine?_spelled (c : Char) (chars : List Char) (spelled : Spelled c chars) (rest : List Char) :
    basicLine? (chars ++ rest) = (basicLine? rest).map fun parts => (c :: parts.1, parts.2) := by
  cases spelled with
  | plain noQuote noBackslash noControl =>
      rw [List.singleton_append, basicLine?.eq_def (c :: rest)]
      split <;> simp_all [isPrintable]
  | escaped mark tail solid reads =>
      rw [List.cons_append, List.cons_append, basicLine?.eq_def]
      simp only
      split
      · rename_i none
        rw [reads] at none
        cases none
      · rename_i found
        rw [reads] at found
        cases found
        rfl

@[simp]
theorem basicLine?_written (text rest : List Char) :
    basicLine? (text.flatMap escapeChar ++ '"' :: rest) = some (text, rest) := by
  induction text with
  | nil => simp [basicLine?]
  | cons c tail ih =>
      rw [List.flatMap_cons, List.append_assoc, basicLine?_spelled c _ (spelled_escapeChar c), ih]
      rfl

end BasicLine

theorem literalLine?_written (text rest : List Char) (noMark : '\'' ∉ text) (printable : ∀ c ∈ text, isPrintable c) :
    literalLine? (text ++ '\'' :: rest) = some (text, rest) := by
  induction text with
  | nil => rfl
  | cons c tail ih =>
      have other : c ≠ '\'' := fun same => noMark (same ▸ List.mem_cons_self)
      have behind := ih (fun member => noMark (List.mem_cons_of_mem c member))
        fun d member => printable d (List.mem_cons_of_mem c member)
      rw [List.cons_append, literalLine?.eq_def]
      split <;> simp_all

theorem Spelled.head (c : Char) (chars : List Char) (spelled : Spelled c chars) (rest : List Char) :
    ∀ d ∈ (chars ++ rest).head?, d ≠ '"' ∧ isControl d = false := by
  rintro d first
  cases spelled with
  | plain noQuote noBackslash noControl => cases first; exact ⟨noQuote, noControl⟩
  | escaped mark tail solid reads => cases first; decide

section BasicLines

theorem endsLine_of_solid (mark : Char) (rest : List Char) (solid : isControl mark = false ∧ mark ≠ ' ') :
    endsLine (mark :: rest) = false := by
  have noBlank : isBlank mark = false := by
    have noTab : mark ≠ '\t' := by rintro rfl; exact absurd solid.1 (by decide)
    simp [isBlank, solid.2, noTab]
  have noNewline : mark ≠ '\n' := by rintro rfl; exact absurd solid.1 (by decide)
  have noReturn : mark ≠ '\r' := by rintro rfl; exact absurd solid.1 (by decide)
  simp [endsLine, skipBlank, noBlank, newline?, noNewline, noReturn]

theorem basicLines?_spelled (c : Char) (chars : List Char) (spelled : Spelled c chars) (rest : List Char) :
    basicLines? false (chars ++ rest) = (basicLines? false rest).map fun parts => (c :: parts.1, parts.2) := by
  cases spelled with
  | plain noQuote noBackslash noControl =>
      have noReturn : c ≠ '\r' := by rintro rfl; cases noControl
      rw [List.singleton_append, basicLines?.eq_def]
      split <;> simp_all [isPrintable]
  | escaped mark tail solid reads =>
      rw [List.cons_append, List.cons_append, basicLines?.eq_def]
      simp only [endsLine_of_solid mark _ solid]
      simp only [Bool.false_eq_true, if_false]
      split
      · rename_i none
        rw [reads] at none
        cases none
      · rename_i found
        rw [reads] at found
        cases found
        rfl

theorem basicLines?_newline (rest : List Char) :
    basicLines? false ('\n' :: rest) = (basicLines? false rest).map fun parts => ('\n' :: parts.1, parts.2) := by
  rw [basicLines?.eq_def]
  simp

theorem basicLines?_quote (rest : List Char) (open_ : ∀ more, rest ≠ '"' :: '"' :: more) :
    basicLines? false ('"' :: rest) = (basicLines? false rest).map fun parts => ('"' :: parts.1, parts.2) := by
  rw [basicLines?.eq_def]
  split <;> (rename_i same; cases same)
  · exact absurd rfl (open_ _)
  · exact absurd rfl (open_ _)
  · exact absurd rfl (open_ _)
  · simp [isPrintable, isControl]

variable (count : Nat) (few : count ≤ 2) (rest : List Char) (stop : rest.head? ≠ some '"')
include few stop

theorem basicLines?_quotes : basicLines? false (List.replicate count '"' ++ rest) =
    (basicLines? false rest).map fun parts => (List.replicate count '"' ++ parts.1, parts.2) := by
  have one := basicLines?_quote rest (by rintro more rfl; exact stop rfl)
  have two := basicLines?_quote ('"' :: rest) (by rintro more same; cases same; exact stop rfl)
  interval_cases count
  · simp
  · simpa using one
  · rw [one, Option.map_map] at two
    exact two

theorem basicLines?_closing :
    basicLines? false (List.replicate count '"' ++ '"' :: '"' :: '"' :: rest) = some (List.replicate count '"', rest) := by
  have other : ∀ more, rest ≠ '"' :: more := by rintro more rfl; exact stop rfl
  interval_cases count
  · simp only [List.replicate, List.nil_append]
    rw [basicLines?]
    · exact fun more same => other _ same
    · exact fun more same => other _ same
  · simp only [List.replicate, List.cons_append, List.nil_append]
    rw [basicLines?]
    exact fun more same => other _ same
  · simp [basicLines?]

theorem basicLines?_escapeLines (text : List Char) :
    basicLines? false (List.replicate count '"' ++ (escapeLines count text ++ '"' :: '"' :: '"' :: rest)) =
      some (List.replicate count '"' ++ text, rest) := by
  induction text generalizing count with
  | nil => simpa [escapeLines] using basicLines?_closing count few rest stop
  | cons c tail ih =>
      have behind := ih 0 (Nat.zero_le 2)
      simp only [List.replicate, List.nil_append] at behind
      unfold escapeLines
      split_ifs with quote newline
      · obtain ⟨rfl, room⟩ := quote
        have more := ih (count + 1) room
        simpa [List.replicate_succ', List.append_assoc] using more
      · subst newline
        rw [List.cons_append, basicLines?_quotes count few _ (by simp), basicLines?_newline, behind]
        rfl
      · have spelled := spelled_escapeChar c
        have first := spelled.head c _ (escapeLines 0 tail ++ '"' :: '"' :: '"' :: rest)
        rw [List.append_assoc, basicLines?_quotes count few _ fun same => (first '"' same).1 rfl,
          basicLines?_spelled c _ spelled, behind]
        rfl

end BasicLines

section LiteralLines

theorem literalLines?_char (c : Char) (other : c ≠ '\'') (lines : c = '\n' ∨ isPrintable c) (rest : List Char) :
    literalLines? (c :: rest) = (literalLines? rest).map fun parts => (c :: parts.1, parts.2) := by
  have noReturn : c ≠ '\r' := by rintro rfl; revert lines; decide
  rw [literalLines?.eq_def]
  split <;> simp_all

theorem literalLines?_mark (rest : List Char) (open_ : ∀ more, rest ≠ '\'' :: '\'' :: more) :
    literalLines? ('\'' :: rest) = (literalLines? rest).map fun parts => ('\'' :: parts.1, parts.2) := by
  rw [literalLines?.eq_def]
  split <;> (rename_i same; cases same)
  · exact absurd rfl (open_ _)
  · exact absurd rfl (open_ _)
  · exact absurd rfl (open_ _)
  · simp [isPrintable, isControl]

variable (count : Nat) (few : count ≤ 2) (rest : List Char) (stop : rest.head? ≠ some '\'')
include few stop

theorem literalLines?_marks : literalLines? (List.replicate count '\'' ++ rest) =
    (literalLines? rest).map fun parts => (List.replicate count '\'' ++ parts.1, parts.2) := by
  have one := literalLines?_mark rest (by rintro more rfl; exact stop rfl)
  have two := literalLines?_mark ('\'' :: rest) (by rintro more same; cases same; exact stop rfl)
  interval_cases count
  · simp
  · simpa using one
  · rw [one, Option.map_map] at two
    exact two

theorem literalLines?_closing : literalLines? (List.replicate count '\'' ++ '\'' :: '\'' :: '\'' :: rest) =
    some (List.replicate count '\'', rest) := by
  have other : ∀ more, rest ≠ '\'' :: more := by rintro more rfl; exact stop rfl
  interval_cases count
  · simp only [List.replicate, List.nil_append]
    rw [literalLines?]
    · exact fun more same => other _ same
    · exact fun more same => other _ same
  · simp only [List.replicate, List.cons_append, List.nil_append]
    rw [literalLines?]
    exact fun more same => other _ same
  · rfl

omit few in
theorem literalLines?_written (text : List Char) (runs : longestRun '\'' count text ≤ 2)
    (lines : ∀ c ∈ text, c = '\n' ∨ isPrintable c) :
    literalLines? (List.replicate count '\'' ++ (text ++ '\'' :: '\'' :: '\'' :: rest)) =
      some (List.replicate count '\'' ++ text, rest) := by
  induction text generalizing count with
  | nil => simpa using literalLines?_closing count runs rest stop
  | cons c tail ih =>
      have tailLines : ∀ d ∈ tail, d = '\n' ∨ isPrintable d := fun d member => lines d (List.mem_cons_of_mem c member)
      unfold longestRun at runs
      split at runs
      · rename_i mark
        subst mark
        have more := ih (count + 1) runs tailLines
        simpa [List.replicate_succ', List.append_assoc] using more
      · rename_i other
        have behind := ih 0 (by omega) tailLines
        simp only [List.replicate, List.nil_append] at behind
        rw [List.cons_append, literalLines?_marks count (by omega) _ (by simpa using other),
          literalLines?_char c other (lines c List.mem_cons_self), behind]
        rfl

end LiteralLines

section Forms

variable (text rest : List Char)

-- A text that has no characters is written with two marks, so a third may not follow.
theorem quoted?_basicLine (stop : rest.head? ≠ some '"') : quoted? (basicLine text ++ rest) = some (text, rest) := by
  have chars : basicLine text ++ rest = '"' :: (text.flatMap escapeChar ++ '"' :: rest) := by simp [basicLine]
  have apart : ∀ more, text.flatMap escapeChar ++ '"' :: rest ≠ '"' :: '"' :: more := by
    intro more same
    cases text with
    | nil => cases same; exact stop rfl
    | cons c tail =>
        have first := (spelled_escapeChar c).head c _ (tail.flatMap escapeChar ++ '"' :: rest)
        rw [← List.append_assoc, ← List.flatMap_cons, same] at first
        exact (first '"' rfl).1 rfl
  rw [chars, quoted?]
  · exact basicLine?_written text rest
  · exact apart

theorem quoted?_literalLine (inhabited : text ≠ []) (noMark : '\'' ∉ text) (printable : ∀ c ∈ text, isPrintable c) :
    quoted? (literalLine text ++ rest) = some (text, rest) := by
  have chars : literalLine text ++ rest = '\'' :: (text ++ '\'' :: rest) := by simp [literalLine]
  have apart : ∀ more, text ++ '\'' :: rest ≠ '\'' :: '\'' :: more := by
    intro more same
    cases text with
    | nil => exact inhabited rfl
    | cons c tail => exact noMark ((List.cons.inj same).1 ▸ List.mem_cons_self)
  rw [chars, quoted?]
  · exact literalLine?_written text rest noMark printable
  · exact apart

theorem dropLineEnd_opening (body : List Char)
    (first : '\n' ∉ text → ∀ c ∈ body.head?, c ≠ '\n' ∧ c ≠ '\r') : dropLineEnd (opening text ++ body) = body := by
  unfold opening
  split
  · rfl
  · rename_i single
    have head := first single
    unfold dropLineEnd newline?
    rw [List.nil_append]
    split
    · exact absurd rfl (head '\n' rfl).1
    · exact absurd rfl (head '\r' rfl).2
    · rfl

theorem quoted?_basicLines (stop : rest.head? ≠ some '"') : quoted? (basicLines text ++ rest) = some (text, rest) := by
  have found := basicLines?_escapeLines 0 (Nat.zero_le 2) rest stop text
  have opened := dropLineEnd_opening text (escapeLines 0 text ++ '"' :: '"' :: '"' :: rest) fun single => by
    cases text with
    | nil => rintro c ⟨⟩; decide
    | cons c tail =>
        have noNewline : c ≠ '\n' := fun same => single (same ▸ List.mem_cons_self)
        unfold escapeLines
        split_ifs
        · rintro d ⟨⟩; decide
        · rw [List.append_assoc]
          intro d first
          have noControl := ((spelled_escapeChar c).head c _ _ d first).2
          constructor <;> (rintro rfl; cases noControl)
  have chars : basicLines text ++ rest =
      '"' :: '"' :: '"' :: (opening text ++ (escapeLines 0 text ++ '"' :: '"' :: '"' :: rest)) := by
    simp [basicLines]
  rw [chars, quoted?, opened]
  exact found

theorem quoted?_literalLines (stop : rest.head? ≠ some '\'') (runs : longestRun '\'' 0 text ≤ 2)
    (lines : ∀ c ∈ text, c = '\n' ∨ isPrintable c) : quoted? (literalLines text ++ rest) = some (text, rest) := by
  have found := literalLines?_written 0 rest stop text runs lines
  have opened := dropLineEnd_opening text (text ++ '\'' :: '\'' :: '\'' :: rest) fun single => by
    cases text with
    | nil => rintro c ⟨⟩; decide
    | cons c tail =>
        rintro d ⟨⟩
        refine ⟨fun same => single (same ▸ List.mem_cons_self), ?_⟩
        rintro rfl
        exact absurd (lines '\r' List.mem_cons_self) (by decide)
  have chars : literalLines text ++ rest =
      '\'' :: '\'' :: '\'' :: (opening text ++ (text ++ '\'' :: '\'' :: '\'' :: rest)) := by
    simp [literalLines]
  rw [chars, quoted?, opened]
  exact found

end Forms

theorem printable_of_needsEscape (c : Char) (plain : needsEscape c = false) : c = '\n' ∨ isPrintable c := by
  by_cases newline : c = '\n'
  · exact .inl newline
  · refine .inr ?_
    simp only [needsEscape, isPrintable] at plain ⊢
    grind

theorem quoted?_writeText (text rest : List Char) (stop : ∀ c ∈ rest.head?, c ≠ '"' ∧ c ≠ '\'') :
    quoted? (writeText text ++ rest) = some (text, rest) := by
  have noQuote : rest.head? ≠ some '"' := fun first => (stop '"' first).1 rfl
  have noMark : rest.head? ≠ some '\'' := fun first => (stop '\'' first).2 rfl
  have lines (plain : ¬ text.any needsEscape) : ∀ c ∈ text, c = '\n' ∨ isPrintable c := fun c member =>
    printable_of_needsEscape c (Bool.eq_false_iff.mpr fun escape => plain (List.any_eq_true.mpr ⟨c, member, escape⟩))
  simp only [writeText]
  split_ifs with basic literal basics literals several
  · exact quoted?_basicLine text rest noQuote
  · have inhabited : text ≠ [] := by rintro rfl; exact basic (by simp)
    refine quoted?_literalLine text rest inhabited literal.2.2 fun c member => ?_
    exact (lines literal.1 c member).resolve_left fun newline => literal.2.1 (newline ▸ member)
  · exact quoted?_basicLines text rest noQuote
  · exact quoted?_literalLines text rest noMark literals.2 (lines literals.1)
  · exact quoted?_basicLines text rest noQuote
  · exact quoted?_basicLine text rest noQuote

theorem keyPart?_bare (key rest : List Char) (inhabited : key ≠ []) (bare : ∀ c ∈ key, isBareKeyChar c)
    (stop : ∀ c ∈ rest.head?, isBareKeyChar c = false) : keyPart? (key ++ rest) = some (String.ofList key, rest) := by
  have stopped : rest.takeWhile isBareKeyChar = [] ∧ rest.dropWhile isBareKeyChar = rest := by
    cases rest with
    | nil => exact ⟨rfl, rfl⟩
    | cons c tail => simp [stop c rfl]
  have taken : (key ++ rest).takeWhile isBareKeyChar = key := by
    rw [List.takeWhile_append_of_pos bare, stopped.1, List.append_nil]
  have left : (key ++ rest).dropWhile isBareKeyChar = rest := by
    rw [List.dropWhile_append_of_pos bare, stopped.2]
  cases key with
  | nil => exact absurd rfl inhabited
  | cons c tail =>
      have first := bare c List.mem_cons_self
      unfold keyPart?
      split
      · rename_i same
        rw [(List.cons.inj same).1] at first
        cases first
      · rename_i same
        rw [(List.cons.inj same).1] at first
        cases first
      · simp only [taken, left]
        rfl

theorem keyPart?_writeKey (key rest : List Char) (stop : ∀ c ∈ rest.head?, isBareKeyChar c = false) :
    keyPart? (writeKey key ++ rest) = some (String.ofList key, rest) := by
  have basic : keyPart? (basicLine key ++ rest) = some (String.ofList key, rest) := by
    have chars : basicLine key ++ rest = '"' :: (key.flatMap escapeChar ++ '"' :: rest) := by simp [basicLine]
    rw [chars, keyPart?, basicLine?_written]
    rfl
  simp only [writeKey]
  split_ifs with bare plain literal
  · refine keyPart?_bare key rest ?_ (List.all_eq_true.mp bare.2) stop
    rintro rfl
    exact bare.1 rfl
  · exact basic
  · have chars : literalLine key ++ rest = '\'' :: (key ++ '\'' :: rest) := by simp [literalLine]
    have printable : ∀ c ∈ key, isPrintable c := fun c member => by
      have stands : ¬ (needsEscape c || c == '\n') := fun escape =>
        literal.1 (List.any_eq_true.mpr ⟨c, member, escape⟩)
      simp only [Bool.or_eq_true, not_or, Bool.not_eq_true, beq_eq_false_iff_ne] at stands
      exact (printable_of_needsEscape c stands.1).resolve_left stands.2
    rw [chars, keyPart?, literalLine?_written key rest literal.2 printable]
    rfl
  · exact basic

end ClassProgression.Toml
