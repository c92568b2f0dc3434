import ClassProgression.Proofs.Json.Numeral

namespace ClassProgression.Json

section Quoted

theorem codeUnit?_hexDigits :
    ∀ n < 32, codeUnit? '0' '0' (hexDigit (n / 16)) (hexDigit (n % 16)) = some n := by decide

theorem unquote_escape (c : Char) (rest : List Char) :
    unquote (escape c ++ rest) = (unquote rest).map fun parts => (c :: parts.1, parts.2) := by
  unfold escape
  split_ifs with quotes backslash newline carriage tab backspace feed control
  · subst quotes; rfl
  · subst backslash; rfl
  · subst newline; rfl
  · subst carriage; rfl
  · subst tab; rfl
  · subst backspace; rfl
  · subst feed; rfl
  · have unit := codeUnit?_hexDigits c.toNat control
    have low : isLowSurrogate c.toNat = false := by simp [isLowSurrogate]; omega
    have high : isHighSurrogate c.toNat = false := by simp [isHighSurrogate]; omega
    simp only [List.cons_append, List.nil_append]
    rw [unquote]
    simp [unit, low, high]
  · rw [List.singleton_append, unquote.eq_def (c :: rest)]
    split <;> simp_all

theorem unquote_quoted (text rest : List Char) : unquote (text.flatMap escape ++ '"' :: rest) = some (text, rest) := by
  induction text with
  | nil => rfl
  | cons c tail ih => rw [List.flatMap_cons, List.append_assoc, unquote_escape, ih]; rfl

theorem readText?_quote (text : String) (rest : List Char) :
    readText? (quote text.toList ++ rest) = some (text, rest) := by
  have quoted : quote text.toList ++ rest = '"' :: (text.toList.flatMap escape ++ '"' :: rest) := by simp [quote]
  rw [quoted, readText?, unquote_quoted]
  simp

end Quoted

-- The reader finds the value in front of whatever ends a word, and the text does not begin with such an end.
structure Finds (read : List Char → Option (α × List Char)) (value : α) (chars : List Char) : Prop where
  first : ∃ c tail, chars = c :: tail ∧ endsWord c = false
  reads : ∀ rest, Ends rest → read (chars ++ rest) = some (value, rest)

-- Parts one after the other, each behind a gap, with commas between them.
def sequence (gap : List Char) (write : α → List Char) : List α → List Char
  | [] => []
  | [only] => gap ++ write only
  | item :: rest => gap ++ write item ++ ',' :: sequence gap write rest

def Blank (gap : List Char) : Prop := ∀ c ∈ gap, isBlank c

theorem blank_nil : Blank [] := fun _ member => nomatch member

theorem skipBlank_append (gap : List Char) (blank : Blank gap) (rest : List Char) :
    skipBlank (gap ++ rest) = skipBlank rest := by
  unfold skipBlank
  exact List.dropWhile_append_of_pos blank

theorem skipBlank_cons (c : Char) (rest : List Char) (solid : isBlank c = false) :
    skipBlank (c :: rest) = c :: rest := by
  simp [skipBlank, solid]

theorem endsWord_of_isBlank (c : Char) (blank : isBlank c) : endsWord c := by simp [endsWord, blank]

@[simp]
theorem Bracket.isBlank_closing (bracket : Bracket) : isBlank bracket.closing = false := by cases bracket <;> rfl

theorem Bracket.endsWord_closing (bracket : Bracket) : endsWord bracket.closing := by cases bracket <;> rfl

theorem Finds.skipBlank (read : List Char → Option (α × List Char)) (value : α) (chars : List Char)
    (finds : Finds read value chars) (gap : List Char) (blank : Blank gap) (rest : List Char) :
    Json.skipBlank (gap ++ (chars ++ rest)) = chars ++ rest := by
  obtain ⟨c, tail, rfl, solid⟩ := finds.first
  have noBlank : isBlank c = false := Bool.eq_false_iff.mpr fun blank => by
    rw [endsWord_of_isBlank c blank] at solid
    cases solid
  rw [skipBlank_append gap blank, List.cons_append, skipBlank_cons c _ noBlank]

section Sequences

variable (read : List Char → Option (α × List Char)) (write : α → List Char) (gap : List Char)

theorem sequence_cons (item next : α) (others : List α) : sequence gap write (item :: next :: others) =
    gap ++ write item ++ ',' :: sequence gap write (next :: others) := rfl

theorem sequence_head (item : α) (more : List α) :
    ∃ behind, sequence gap write (item :: more) = gap ++ write item ++ behind := by
  cases more with
  | nil => exact ⟨[], (List.append_nil _).symm⟩
  | cons next others => exact ⟨_, sequence_cons write gap item next others⟩

theorem length_le_sequence (items : List α) (finds : ∀ item ∈ items, Finds read item (write item)) :
    items.length ≤ (sequence gap write items).length := by
  induction items with
  | nil => exact Nat.zero_le _
  | cons item more ih =>
      obtain ⟨c, chars, first, _⟩ := (finds item List.mem_cons_self).first
      have behind := ih fun other later => finds other (List.mem_cons_of_mem item later)
      cases more with
      | nil => simp only [sequence, first, List.length_append, List.length_cons, List.length_nil]; omega
      | cons next others =>
          simp only [sequence_cons, first, List.length_append, List.length_cons] at behind ⊢
          omega

variable (tail : List Char) (blankGap : Blank gap) (blankTail : Blank tail) (bracket : Bracket) (rest : List Char)

include blankTail in
theorem skipBlank_closing : skipBlank (tail ++ bracket.closing :: rest) = bracket.closing :: rest := by
  rw [skipBlank_append tail blankTail, skipBlank_cons _ _ bracket.isBlank_closing]

include blankTail in
theorem ends_closing : Ends (tail ++ bracket.closing :: rest) := by
  intro c first
  cases tail with
  | nil => cases first; exact bracket.endsWord_closing
  | cons blank more => cases first; exact endsWord_of_isBlank _ (blankTail _ List.mem_cons_self)

include blankGap blankTail

theorem readItems?_sequence (items : List α) (inhabited : items ≠ []) (fuel : Nat) (enough : items.length ≤ fuel)
    (finds : ∀ item ∈ items, Finds read item (write item)) :
    readItems? read bracket.closing fuel (sequence gap write items ++ (tail ++ bracket.closing :: rest)) =
      some (items, rest) := by
  induction items generalizing fuel with
  | nil => exact absurd rfl inhabited
  | cons item more ih =>
      have here := finds item List.mem_cons_self
      cases fuel with
      | zero => cases enough
      | succ fuel =>
          cases more with
          | nil =>
              have found := here.reads _ (ends_closing tail blankTail bracket rest)
              rw [sequence, List.append_assoc, readItems?, here.skipBlank _ _ _ gap blankGap, found]
              simp [skipBlank_closing tail blankTail bracket rest]
          | cons next others =>
              have behind := ih (List.cons_ne_nil next others) fuel (Nat.le_of_succ_le_succ enough)
                fun other later => finds other (List.mem_cons_of_mem item later)
              have found := here.reads
                (',' :: (sequence gap write (next :: others) ++ (tail ++ bracket.closing :: rest))) (by rintro c ⟨⟩; rfl)
              have other : ',' ≠ bracket.closing := by cases bracket <;> decide
              rw [sequence_cons, List.append_assoc, List.append_assoc, List.cons_append, readItems?,
                here.skipBlank _ _ _ gap blankGap, found]
              simp [skipBlank_cons ',' _ rfl, other, behind]

theorem readSequence?_sequence (items : List α) (finds : ∀ item ∈ items, Finds read item (write item)) :
    readSequence? read bracket.closing (sequence gap write items ++ (tail ++ bracket.closing :: rest)) =
      some (items, rest) := by
  cases items with
  | nil => simp [sequence, readSequence?, skipBlank_closing tail blankTail bracket rest]
  | cons item more =>
      have here := finds item List.mem_cons_self
      obtain ⟨c, chars, first, solid⟩ := here.first
      have inside : c ≠ bracket.closing := by
        rintro rfl
        rw [bracket.endsWord_closing] at solid
        cases solid
      obtain ⟨behind, parts⟩ := sequence_head write gap item more
      have start : skipBlank (sequence gap write (item :: more) ++ (tail ++ bracket.closing :: rest)) =
          c :: (chars ++ (behind ++ (tail ++ bracket.closing :: rest))) := by
        rw [parts, List.append_assoc, List.append_assoc, here.skipBlank _ _ _ gap blankGap, first]
        rfl
      simp only [readSequence?, start, if_neg inside]
      exact readItems?_sequence read write gap tail blankGap blankTail bracket rest (item :: more)
        (List.cons_ne_nil item more) _ ((length_le_sequence read write gap _ finds).trans (by simp)) finds

end Sequences

theorem finds_field (read : List Char → Option (Json × List Char)) (name : String) (value : Json)
    (gap chars : List Char) (blank : Blank gap) (finds : Finds read value chars) :
    Finds (readField? read) (name, value) (writeName name ++ ':' :: (gap ++ chars)) := by
  refine ⟨⟨'"', _, rfl, rfl⟩, fun rest ends => ?_⟩
  have content := finds.skipBlank read value chars gap blank rest
  have quoted := readText?_quote name (':' :: (gap ++ (chars ++ rest)))
  simp [readField?, writeName, quoted, skipBlank_cons ':' _ rfl, content, finds.reads rest ends]

section Values

variable (depth : Nat) (gap tail : List Char) (blankGap : Blank gap) (blankTail : Blank tail)
include blankGap blankTail

theorem finds_list (items : List Json) (write : Json → List Char)
    (finds : ∀ item ∈ items, Finds (readValue? depth) item (write item)) :
    Finds (readValue? (depth + 1)) (.list items) ('[' :: (sequence gap write items ++ tail ++ [']'])) := by
  refine ⟨⟨'[', _, rfl, rfl⟩, fun rest _ => ?_⟩
  have found := readSequence?_sequence (readValue? depth) write gap tail blankGap blankTail .list rest items finds
  have chars : '[' :: (sequence gap write items ++ tail ++ [']']) ++ rest =
      '[' :: (sequence gap write items ++ (tail ++ ']' :: rest)) := by simp
  rw [chars]
  exact congrArg (Option.map fun parts => (Json.list parts.1, parts.2)) found

theorem finds_object (fields : List (String × Json)) (write : String × Json → List Char)
    (finds : ∀ field ∈ fields, Finds (readField? (readValue? depth)) field (write field)) :
    Finds (readValue? (depth + 1)) (.object fields) ('\x7b' :: (sequence gap write fields ++ tail ++ ['\x7d'])) := by
  refine ⟨⟨'\x7b', _, rfl, rfl⟩, fun rest _ => ?_⟩
  have found := readSequence?_sequence (readField? (readValue? depth)) write gap tail blankGap blankTail .object rest
    fields finds
  have chars : '\x7b' :: (sequence gap write fields ++ tail ++ ['\x7d']) ++ rest =
      '\x7b' :: (sequence gap write fields ++ (tail ++ '\x7d' :: rest)) := by simp
  rw [chars]
  exact congrArg (Option.map fun parts => (Json.object parts.1, parts.2)) found

end Values

-- A value without parts. A float has to be one that can be read back.
inductive Plain : Json → Prop
  | null : Plain .null
  | bool (value) : Plain (.bool value)
  | integer (value) : Plain (.integer value)
  | float (value) (legible : Legible value) : Plain (.float value)
  | text (value) : Plain (.text value)

inductive Readable : Nat → Json → Prop
  | plain (depth value) (plain : Plain value) : Readable depth value
  | list (depth items) (each : ∀ item ∈ items, Readable depth item) : Readable (depth + 1) (.list items)
  | object (depth fields) (each : ∀ field ∈ fields, Readable depth field.2) : Readable (depth + 1) (.object fields)

theorem finds_number (depth : Nat) (value : Json) (chars : List Char) (numeric : Numeric chars)
    (read : readNumber? chars = some (value, [])) : Finds (readValue? depth) value chars := by
  refine ⟨?_, readValue?_number depth chars value numeric read⟩
  cases chars with
  | nil => cases read
  | cons c tail =>
      refine ⟨c, tail, rfl, Bool.eq_false_iff.mpr fun stop => ?_⟩
      have numeral := numeric c List.mem_cons_self
      rw [isNumeral_of_endsWord c stop] at numeral
      cases numeral

theorem finds_literal (depth : Nat) (literal : List Char × Json) (known : literal ∈ literals) :
    Finds (readValue? depth) literal.2 literal.1 := by
  simp only [literals, List.mem_cons, List.not_mem_nil, or_false] at known
  rcases known with rfl | rfl | rfl
  all_goals exact ⟨⟨_, _, rfl, rfl⟩, fun rest _ => by cases depth <;> simp [readValue?, readLiteral?, literals]⟩

theorem finds_text (depth : Nat) (value : String) : Finds (readValue? depth) (.text value) (quote value.toList) := by
  refine ⟨⟨'"', _, rfl, rfl⟩, fun rest _ => ?_⟩
  have quoted : ∀ more, readValue? depth ('"' :: more) =
      (readText? ('"' :: more)).map fun parts => (.text parts.1, parts.2) := by
    intro more
    cases depth <;> rfl
  have found := congrArg (Option.map fun parts => (Json.text parts.1, parts.2)) (readText?_quote value rest)
  exact (quoted _).trans found

theorem finds_plain (depth : Nat) (value : Json) (plain : Plain value) :
    Finds (readValue? depth) value (writeScalar value) := by
  cases plain with
  | null => exact finds_literal depth (['n', 'u', 'l', 'l'], .null) (by simp [literals])
  | bool value =>
      cases value with
      | true => exact finds_literal depth (['t', 'r', 'u', 'e'], .bool true) (by simp [literals])
      | false => exact finds_literal depth (['f', 'a', 'l', 's', 'e'], .bool false) (by simp [literals])
  | integer value => exact finds_number depth _ _ (numeric_integer value) (readNumber?_integer value)
  | float value legible => exact finds_number depth _ _ legible.numeric legible.readNumber?
  | text value => exact finds_text depth value

section Compact

theorem compactItems_eq (items : List Json) : compactItems items = sequence [] compactChars items := by
  induction items with
  | nil => rfl
  | cons item more ih =>
      cases more with
      | nil => rfl
      | cons next others => rw [sequence_cons, ← ih]; rfl

def compactField (field : String × Json) : List Char := writeName field.1 ++ ':' :: compactChars field.2

theorem compactFields_eq (fields : List (String × Json)) : compactFields fields = sequence [] compactField fields := by
  induction fields with
  | nil => rfl
  | cons field more ih =>
      cases more with
      | nil => rfl
      | cons next others => rw [sequence_cons, ← ih]; simp [compactFields, compactField]

theorem finds_compact (depth : Nat) (value : Json) (readable : Readable depth value) :
    Finds (readValue? depth) value (compactChars value) := by
  induction readable with
  | plain depth value plain =>
      have chars : compactChars value = writeScalar value := by cases plain <;> rfl
      rw [chars]
      exact finds_plain depth value plain
  | list depth items each ih =>
      rw [compactChars, compactItems_eq, ← List.append_nil (sequence _ _ _)]
      exact finds_list depth [] [] blank_nil blank_nil items compactChars ih
  | object depth fields each ih =>
      rw [compactChars, compactFields_eq, ← List.append_nil (sequence _ _ _)]
      refine finds_object depth [] [] blank_nil blank_nil fields compactField fun field member => ?_
      exact finds_field (readValue? depth) field.1 field.2 [] _ blank_nil (ih field member)

end Compact

section Pretty

theorem prettyItems_eq (indent : Nat) (items : List Json) :
    prettyItems indent items = sequence (newlineIndent indent) (prettyChars indent) items := by
  induction items with
  | nil => rfl
  | cons item more ih =>
      cases more with
      | nil => rfl
      | cons next others => rw [sequence_cons, ← ih]; rfl

def prettyField (indent : Nat) (field : String × Json) : List Char :=
  writeName field.1 ++ ':' :: ([' '] ++ prettyChars indent field.2)

theorem prettyFields_eq (indent : Nat) (fields : List (String × Json)) :
    prettyFields indent fields = sequence (newlineIndent indent) (prettyField indent) fields := by
  induction fields with
  | nil => rfl
  | cons field more ih =>
      cases more with
      | nil => simp [sequence, prettyFields, prettyField]
      | cons next others => rw [sequence_cons, ← ih]; simp [prettyFields, prettyField]

theorem blank_space : Blank [' '] := by simp [Blank, isBlank]

theorem blank_newlineIndent (indent : Nat) : Blank (newlineIndent indent) := by
  intro c member
  rcases List.mem_cons.mp member with rfl | blank
  · rfl
  · rw [List.eq_of_mem_replicate blank]
    rfl

theorem finds_pretty (depth : Nat) (value : Json) (readable : Readable depth value) (indent : Nat) :
    Finds (readValue? depth) value (prettyChars indent value) := by
  induction readable generalizing indent with
  | plain depth value plain =>
      have chars : prettyChars indent value = writeScalar value := by cases plain <;> rfl
      rw [chars]
      exact finds_plain depth value plain
  | list depth items each ih =>
      cases items with
      | nil => exact finds_list depth [] [] blank_nil blank_nil [] (prettyChars indent) fun _ member => nomatch member
      | cons item more =>
          rw [prettyChars, prettyItems_eq]
          · exact finds_list depth _ _ (blank_newlineIndent _) (blank_newlineIndent _) (item :: more)
              (prettyChars (indent + 1)) fun other member => ih other member (indent + 1)
          · exact List.cons_ne_nil item more
  | object depth fields each ih =>
      cases fields with
      | nil => exact finds_object depth [] [] blank_nil blank_nil [] (prettyField indent) fun _ member => nomatch member
      | cons field more =>
          rw [prettyChars, prettyFields_eq]
          · refine finds_object depth _ _ (blank_newlineIndent _) (blank_newlineIndent _) (field :: more)
              (prettyField (indent + 1)) fun other member => ?_
            exact finds_field (readValue? depth) other.1 other.2 [' '] _ blank_space (ih other member (indent + 1))
          · exact List.cons_ne_nil field more

end Pretty

theorem readChars?_blank (value : Json) (chars : List Char) (finds : Finds (readValue? maxDepth) value chars)
    (tail : List Char) (blank : Blank tail) : readChars? (chars ++ tail) = some value := by
  have start := finds.skipBlank _ _ _ [] blank_nil tail
  have ends : Ends tail := by
    cases tail with
    | nil => exact fun _ first => nomatch first
    | cons c more =>
        rintro _ ⟨⟩
        exact endsWord_of_isBlank c (blank c List.mem_cons_self)
  have behind : skipBlank tail = [] := List.dropWhile_eq_nil_iff.mpr blank
  rw [List.nil_append] at start
  rw [readChars?, start, finds.reads tail ends]
  simp [behind]

theorem readChars?_of_finds (value : Json) (chars : List Char) (finds : Finds (readValue? maxDepth) value chars) :
    readChars? chars = some value := by
  have found := readChars?_blank value chars finds [] blank_nil
  rwa [List.append_nil] at found

theorem read?_compact (value : Json) (readable : Readable maxDepth value) : read? value.compact = some value := by
  rw [read?, compact, String.toList_ofList]
  exact readChars?_of_finds value _ (finds_compact maxDepth value readable)

theorem read?_pretty (value : Json) (readable : Readable maxDepth value) : read? value.pretty = some value := by
  rw [read?, pretty, String.toList_ofList]
  exact readChars?_of_finds value _ (finds_pretty maxDepth value readable 0)

theorem legible_two_and_a_half : Legible 2.5 := by
  have shrunk : Decimal.shrink 25 1 = 2.5 := by
    rw [Decimal.shrink, if_pos (by decide)]
    decide +kernel
  have spelling : readSpelling? ['2', '.', '5'] = some (⟨false, ['2'], some ['5'], none⟩, []) := by decide +kernel
  have number : readNumber? ['2', '.', '5'] = some (.float 2.5, []) := by
    rw [readNumber?, spelling]
    exact congrArg (fun number => some (Json.float number, [])) shrunk
  have numeric : Numeric ['2', '.', '5'] := .cons _ _ rfl (.cons _ _ rfl (.cons _ _ rfl .nil))
  have chars : compact (.float 2.5) = String.ofList ['2', '.', '5'] := by decide +kernel
  rw [Legible, chars, read?, String.toList_ofList]
  exact readChars?_of_finds _ _ (finds_number _ _ _ numeric number)

end ClassProgression.Json
