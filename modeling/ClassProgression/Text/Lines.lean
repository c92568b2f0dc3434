namespace ClassProgression.Text

def newline : Char := '\n'

def lines : List Char → List (List Char)
  | [] => [[]]
  | c :: rest =>
      if c = newline then [] :: lines rest
      else match lines rest with
        | [] => [[c]]
        | line :: others => (c :: line) :: others

def unlines : List (List Char) → List Char
  | [] => []
  | [line] => line
  | line :: others => line ++ newline :: unlines others

theorem lines_ne_nil (text : List Char) : lines text ≠ [] := by
  induction text with
  | nil => simp [lines]
  | cons c rest ih =>
      unfold lines
      split
      · simp
      · split <;> simp

@[simp]
theorem unlines_lines (text : List Char) : unlines (lines text) = text := by
  induction text with
  | nil => rfl
  | cons c rest ih =>
      unfold lines
      split
      · rename_i isNewline
        cases h : lines rest with
        | nil => exact absurd h (lines_ne_nil rest)
        | cons line others => rw [h] at ih; simp [unlines, ih, isNewline]
      · cases h : lines rest with
        | nil => exact absurd h (lines_ne_nil rest)
        | cons line others =>
            rw [h] at ih
            cases others with
            | nil => simpa [unlines] using ih
            | cons next more => simpa [unlines] using ih

theorem lines_cons (c : Char) (rest : List Char) (inLine : c ≠ newline) :
    ∃ line others, lines rest = line :: others ∧ lines (c :: rest) = (c :: line) :: others := by
  cases split : lines rest with
  | nil => exact absurd split (lines_ne_nil rest)
  | cons line others => exact ⟨line, others, rfl, by rw [lines, if_neg inLine, split]⟩

theorem lines_of_plain (line : List Char) (plain : newline ∉ line) : lines line = [line] := by
  induction line with
  | nil => rfl
  | cons c rest ih =>
      rw [List.mem_cons, not_or] at plain
      rw [lines, if_neg (Ne.symm plain.1), ih plain.2]

@[simp]
theorem lines_join (upper lower : List Char) :
    lines (upper ++ newline :: lower) = lines upper ++ lines lower := by
  induction upper with
  | nil => simp [lines]
  | cons c rest ih =>
      by_cases ends : c = newline
      · simp only [List.cons_append, lines, if_pos ends, ih]
      · obtain ⟨line, others, split, whole⟩ := lines_cons c rest ends
        rw [split, List.cons_append] at ih
        rw [whole, List.cons_append, List.cons_append, lines, if_neg ends, ih]

theorem plain_of_mem_lines (text line : List Char) (member : line ∈ lines text) : newline ∉ line := by
  induction text generalizing line with
  | nil => simp_all [lines]
  | cons c rest ih =>
      by_cases ends : c = newline
      · rw [lines, if_pos ends, List.mem_cons] at member
        rcases member with rfl | later
        · exact List.not_mem_nil
        · exact ih line later
      · obtain ⟨first, others, split, whole⟩ := lines_cons c rest ends
        rw [split] at ih
        rw [whole, List.mem_cons] at member
        rcases member with rfl | later
        · intro found
          rcases List.mem_cons.mp found with same | inFirst
          · exact ends same.symm
          · exact ih first List.mem_cons_self inFirst
        · exact ih line (List.mem_cons_of_mem first later)

theorem unlines_append (upper lower : List (List Char)) (someUpper : upper ≠ []) (someLower : lower ≠ []) :
    unlines (upper ++ lower) = unlines upper ++ newline :: unlines lower := by
  induction upper with
  | nil => exact absurd rfl someUpper
  | cons line others ih =>
      cases others with
      | nil =>
          cases lower with
          | nil => exact absurd rfl someLower
          | cons next more => simp [unlines]
      | cons next more =>
          have inner := ih (List.cons_ne_nil next more)
          rw [List.cons_append] at inner
          simp [unlines, inner]

theorem lines_unlines (parts : List (List Char)) (inhabited : parts ≠ [])
    (plain : ∀ line ∈ parts, newline ∉ line) : lines (unlines parts) = parts := by
  induction parts with
  | nil => exact absurd rfl inhabited
  | cons line others ih =>
      have first := lines_of_plain line (plain line List.mem_cons_self)
      cases others with
      | nil => exact first
      | cons next more =>
          have rest := ih (List.cons_ne_nil next more) fun other later => plain other (List.mem_cons_of_mem line later)
          rw [← List.singleton_append, unlines_append [line] (next :: more) (by simp) (by simp), lines_join, rest]
          exact congrArg (· ++ next :: more) first

def startsWith (pattern text : List Char) : Bool := pattern.isPrefixOf text

-- The text before the first occurrence of `pattern`, and the text from it on.
def splitBefore? (pattern : List Char) : List Char → Option (List Char × List Char)
  | [] => if startsWith pattern [] then some ([], []) else none
  | c :: rest =>
      if startsWith pattern (c :: rest) then some ([], c :: rest)
      else (splitBefore? pattern rest).map fun parts => (c :: parts.1, parts.2)

end ClassProgression.Text
