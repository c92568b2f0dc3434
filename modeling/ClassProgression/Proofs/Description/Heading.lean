import ClassProgression.Description.Heading

namespace ClassProgression.Description

open Text

def IsHeading (line : List Char) : Prop :=
  1 ≤ hashes line ∧ hashes line ≤ deepest ∧ (line.drop (hashes line)).head? = some ' '

instance (line : List Char) : Decidable (IsHeading line) := inferInstanceAs (Decidable (_ ∧ _))

def deepenLine (levels : Nat) (line : List Char) : List Char :=
  if IsHeading line then List.replicate (min deepest (hashes line + levels)) '#' ++ line.drop (hashes line)
  else line

def deepenText (levels : Nat) (text : List Char) : List Char := unlines ((lines text).map (deepenLine levels))

def deepen (levels : Nat) (text : String) : String := String.ofList (deepenText levels text.toList)

@[simp]
theorem hashes_marked (depth : Nat) (rest : List Char) :
    hashes (List.replicate depth '#' ++ ' ' :: rest) = depth := by
  rw [hashes, List.takeWhile_append_of_pos (by simp), List.takeWhile_cons_of_neg (by decide)]
  simp

theorem marked_hashes (line : List Char) :
    List.replicate (hashes line) '#' ++ line.drop (hashes line) = line := by
  have marks : line.takeWhile (· = '#') = List.replicate (hashes line) '#' := by
    rw [List.eq_replicate_iff]
    refine ⟨rfl, fun c member => ?_⟩
    simpa using List.all_eq_true.mp List.all_takeWhile c member
  have whole := List.takeWhile_append_dropWhile (p := (· = '#')) (l := line)
  have rest : line.drop (hashes line) = line.dropWhile (· = '#') := by
    conv => lhs; arg 2; rw [← whole]
    exact List.drop_left
  rw [rest, ← marks, whole]

@[simp]
theorem drop_marked (depth : Nat) (rest : List Char) :
    (List.replicate depth '#' ++ ' ' :: rest).drop depth = ' ' :: rest :=
  List.drop_left' List.length_replicate

theorem line_cases (line : List Char) :
    (∃ depth rest, 1 ≤ depth ∧ depth ≤ deepest ∧ line = List.replicate depth '#' ++ ' ' :: rest) ∨
      ¬ IsHeading line := by
  by_cases heading : IsHeading line
  · obtain ⟨marked, bounded, behind⟩ := heading
    obtain ⟨rest, spaced⟩ := List.head?_eq_some_iff.mp behind
    exact .inl ⟨hashes line, rest, marked, bounded, by rw [← spaced, marked_hashes]⟩
  · exact .inr heading

theorem deepenLine_heading (levels depth : Nat) (rest : List Char) (marked : 1 ≤ depth) (bounded : depth ≤ deepest) :
    deepenLine levels (List.replicate depth '#' ++ ' ' :: rest) =
      List.replicate (min deepest (depth + levels)) '#' ++ ' ' :: rest := by
  have heading : IsHeading (List.replicate depth '#' ++ ' ' :: rest) := by simp [IsHeading, marked, bounded]
  simp [deepenLine, heading]

theorem deepenLine_other (levels : Nat) (line : List Char) (plain : ¬ IsHeading line) :
    deepenLine levels line = line := if_neg plain

@[simp]
theorem deepenLine_zero (line : List Char) : deepenLine 0 line = line := by
  rcases line_cases line with ⟨depth, rest, marked, bounded, rfl⟩ | plain
  · rw [deepenLine_heading 0 depth rest marked bounded, Nat.add_zero, Nat.min_eq_right bounded]
  · exact deepenLine_other 0 line plain

-- A heading that has reached the deepest level is still a heading, so it stays there.
theorem deepenLine_add (first second : Nat) (line : List Char) :
    deepenLine second (deepenLine first line) = deepenLine (first + second) line := by
  rcases line_cases line with ⟨depth, rest, marked, bounded, rfl⟩ | plain
  · have still : 1 ≤ min deepest (depth + first) := by rw [deepest]; omega
    have sum : min deepest (min deepest (depth + first) + second) = min deepest (depth + (first + second)) := by omega
    rw [deepenLine_heading first depth rest marked bounded,
      deepenLine_heading second _ rest still (Nat.min_le_left ..),
      deepenLine_heading _ depth rest marked bounded, sum]
  · simp only [deepenLine_other _ line plain]

theorem demoteLine_exact (line : List Char) : demoteLine line = deepenLine 1 line := by
  rcases line_cases line with ⟨depth, rest, marked, bounded, rfl⟩ | plain
  · rw [deepenLine_heading 1 depth rest marked bounded]
    simp only [demoteLine, hashes_marked, drop_marked]
    by_cases room : depth < deepest
    · rw [if_pos ⟨marked, room, rfl⟩, Nat.min_eq_right room, List.replicate_succ, List.cons_append]
    · have last : min deepest (depth + 1) = depth := by omega
      rw [if_neg fun heading => room heading.2.1, last]
  · rw [deepenLine_other 1 line plain]
    exact if_neg fun heading => plain ⟨heading.1, Nat.le_of_lt heading.2.1, heading.2.2⟩

theorem deepenLine_plain (levels : Nat) (line : List Char) (plain : newline ∉ line) :
    newline ∉ deepenLine levels line := by
  rcases line_cases line with ⟨depth, rest, marked, bounded, rfl⟩ | other
  · rw [deepenLine_heading levels depth rest marked bounded]
    simp_all [newline]
  · rw [deepenLine_other levels line other]
    exact plain

theorem lines_deepenText (levels : Nat) (text : List Char) :
    lines (deepenText levels text) = (lines text).map (deepenLine levels) := by
  apply lines_unlines
  · simpa using lines_ne_nil text
  · intro line member
    obtain ⟨source, fromText, rfl⟩ := List.mem_map.mp member
    exact deepenLine_plain levels source (plain_of_mem_lines text source fromText)

@[simp]
theorem deepenText_zero (text : List Char) : deepenText 0 text = text := by
  simp [deepenText, funext deepenLine_zero]

theorem deepenText_add (first second : Nat) (text : List Char) :
    deepenText second (deepenText first text) = deepenText (first + second) text := by
  have twice : deepenLine second ∘ deepenLine first = deepenLine (first + second) :=
    funext fun line => deepenLine_add first second line
  rw [deepenText, lines_deepenText, List.map_map, twice, deepenText]

theorem deepenText_join (levels : Nat) (upper lower : List Char) :
    deepenText levels (upper ++ newline :: lower) =
      deepenText levels upper ++ newline :: deepenText levels lower := by
  have upperLines : (lines upper).map (deepenLine levels) ≠ [] := by simpa using lines_ne_nil upper
  have lowerLines : (lines lower).map (deepenLine levels) ≠ [] := by simpa using lines_ne_nil lower
  rw [deepenText, lines_join, List.map_append, unlines_append _ _ upperLines lowerLines]
  rfl

@[simp]
theorem deepen_zero (text : String) : deepen 0 text = text := by
  rw [deepen, deepenText_zero, String.ofList_toList]

theorem deepen_add (first second : Nat) (text : String) :
    deepen second (deepen first text) = deepen (first + second) text := by
  rw [deepen, deepen, String.toList_ofList, deepenText_add, deepen]

theorem demoteHeadings_exact (text : String) : demoteHeadings text = deepen 1 text := by
  rw [demoteHeadings, demoteText, funext demoteLine_exact]
  rfl

theorem deepen_join (levels : Nat) (upper lower : String) :
    deepen levels (upper ++ "\n" ++ lower) = deepen levels upper ++ "\n" ++ deepen levels lower := by
  have joined : (upper ++ "\n" ++ lower).toList = upper.toList ++ newline :: lower.toList := by
    simp [newline]
  rw [deepen, joined, deepenText_join]
  apply String.toList_inj.mp
  simp [deepen, newline]

theorem deepenLine_eq_nil (levels : Nat) (line : List Char) : deepenLine levels line = [] ↔ line = [] := by
  rcases line_cases line with ⟨depth, rest, marked, bounded, rfl⟩ | plain
  · rw [deepenLine_heading levels depth rest marked bounded]
    simp
  · rw [deepenLine_other levels line plain]

theorem deepenText_eq_nil (levels : Nat) (text : List Char) : deepenText levels text = [] ↔ text = [] := by
  constructor
  · intro empty
    have deepened := lines_deepenText levels text
    rw [empty, lines, eq_comm, List.map_eq_singleton_iff] at deepened
    obtain ⟨line, single, nothing⟩ := deepened
    have whole := unlines_lines text
    rw [single, (deepenLine_eq_nil levels line).mp nothing] at whole
    exact whole.symm
  · rintro rfl
    rfl

theorem deepen_eq_empty (levels : Nat) (text : String) : deepen levels text = "" ↔ text = "" := by
  rw [deepen, String.ofList_eq_empty_iff, deepenText_eq_nil, String.toList_eq_nil_iff]

theorem deepen_intercalate (levels : Nat) (parts : List String) :
    deepen levels ("\n".intercalate parts) = "\n".intercalate (parts.map (deepen levels)) := by
  induction parts with
  | nil => rfl
  | cons part rest ih =>
      cases rest with
      | nil => simp
      | cons next more =>
          rw [List.map_cons, List.map_cons, String.intercalate_cons_cons, String.intercalate_cons_cons,
            deepen_join, ih, List.map_cons]

end ClassProgression.Description
