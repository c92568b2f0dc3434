import ClassProgression.Json.Skip
import Mathlib

namespace ClassProgression.Json

section Items

variable (item : List Char → Option (α × List Char)) (other : List Char → Option (β × List Char)) (f : α → β)
  (Known : α → Prop)
  (agree : ∀ input value rest, item input = some (value, rest) → Known value → other input = some (f value, rest))
include agree

theorem readItems?_map (close : Char) (fuel : Nat) (input : List Char) (values : List α) (rest : List Char)
    (found : readItems? item close fuel input = some (values, rest)) (known : ∀ value ∈ values, Known value) :
    readItems? other close fuel input = some (values.map f, rest) := by
  induction fuel generalizing input values with
  | zero => cases found
  | succ fuel ih =>
      rw [readItems?] at found ⊢
      obtain ⟨⟨first, behind⟩, read, found⟩ := Option.bind_eq_some_iff.mp found
      dsimp only at found
      cases skipped : skipBlank behind with
      | nil => rw [skipped] at found; cases found
      | cons c more =>
          rw [skipped] at found
          dsimp only at found
          split_ifs at found with closes comma
          · cases found
            simp [agree _ _ _ read (known first List.mem_cons_self), skipped, closes]
          · subst comma
            obtain ⟨⟨others, left⟩, further, same⟩ := Option.map_eq_some_iff.mp found
            cases same
            have later := ih more others further fun value member => known value (List.mem_cons_of_mem _ member)
            simp [agree _ _ _ read (known first List.mem_cons_self), skipped, closes, later]

theorem readSequence?_map (close : Char) (input : List Char) (values : List α) (rest : List Char)
    (found : readSequence? item close input = some (values, rest)) (known : ∀ value ∈ values, Known value) :
    readSequence? other close input = some (values.map f, rest) := by
  unfold readSequence? at found ⊢
  cases skipped : skipBlank input with
  | nil => rw [skipped] at found; cases found
  | cons c behind =>
      rw [skipped] at found
      dsimp only at found ⊢
      split_ifs at found ⊢
      · cases found
        rfl
      · exact readItems?_map item other f Known agree close _ input values rest found known

end Items

theorem readWanted?_of_readField? (wanted : List String) (input rest : List Char) (field : String × Json)
    (found : readField? (readValue? (maxDepth - 1)) input = some (field, rest)) (known : field.1 ∈ wanted) :
    readWanted? wanted input = some (some field, rest) := by
  unfold readField? at found
  obtain ⟨⟨name, behind⟩, named, found⟩ := Option.bind_eq_some_iff.mp found
  dsimp only at found
  split at found
  · rename_i more colon
    obtain ⟨⟨content, left⟩, read, same⟩ := Option.bind_eq_some_iff.mp found
    cases same
    simp [readWanted?, named, colon, known, read]
  · cases found

theorem readLiteral?_ne_object (input rest : List Char) (fields : List (String × Json)) :
    readLiteral? input ≠ some (.object fields, rest) := by
  intro found
  obtain ⟨literal, listed, read⟩ := List.exists_of_findSome?_eq_some found
  obtain ⟨_, same⟩ := Option.ite_none_right_eq_some.mp read
  simp only [literals, List.mem_cons, List.not_mem_nil, or_false] at listed
  rcases listed with rfl | rfl | rfl <;> cases same

theorem readNumber?_ne_object (input rest : List Char) (fields : List (String × Json)) :
    readNumber? input ≠ some (.object fields, rest) := by
  intro found
  obtain ⟨⟨spelling, _⟩, _, found⟩ := Option.bind_eq_some_iff.mp found
  obtain ⟨number, known, same⟩ := Option.bind_eq_some_iff.mp found
  cases same
  have noFloat : spelling.float?.map Json.float ≠ some (.object fields) := fun same => by
    obtain ⟨_, _, same⟩ := Option.map_eq_some_iff.mp same
    cases same
  unfold Spelling.toJson? at known
  dsimp only at known
  split at known
  · split at known
    · cases known
    · exact noFloat known
  · exact noFloat known

theorem readValue?_object (depth : Nat) (input rest : List Char) (fields : List (String × Json))
    (found : readValue? (depth + 1) input = some (.object fields, rest)) :
    ∃ more, input = '\x7b' :: more ∧ readSequence? (readField? (readValue? depth)) '\x7d' more = some (fields, rest) := by
  unfold readValue? at found
  split at found
  · obtain ⟨_, _, same⟩ := Option.map_eq_some_iff.mp found
    cases same
  · obtain ⟨_, read, same⟩ := Option.map_eq_some_iff.mp found
    cases same
    exact ⟨_, rfl, read⟩
  · obtain ⟨_, _, same⟩ := Option.map_eq_some_iff.mp found
    cases same
  · cases literal : readLiteral? input with
    | some parts =>
        rw [literal] at found
        exact absurd (literal.trans found) (readLiteral?_ne_object input rest fields)
    | none =>
        rw [literal] at found
        exact absurd found (readNumber?_ne_object input rest fields)

-- A record with no other fields than those that are wanted is read as any value.
theorem readRecord?_of_read? (wanted : List String) (text : String) (fields : List (String × Json))
    (found : read? text = some (.object fields)) (known : ∀ field ∈ fields, field.1 ∈ wanted) :
    readRecord? wanted text = some (.object fields) := by
  unfold read? readChars? at found
  split at found
  · rename_i value rest read
    split_ifs at found with whole
    cases found
    obtain ⟨more, first, fieldwise⟩ := readValue?_object _ _ _ _ read
    have wantedOnly := readSequence?_map _ (readWanted? wanted) some (·.1 ∈ wanted)
      (fun input field rest => readWanted?_of_readField? wanted input rest field) _ _ _ _ fieldwise known
    simp [readRecord?, first, wantedOnly, whole, List.filterMap_map]
  · cases found

end ClassProgression.Json
