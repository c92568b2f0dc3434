import ClassProgression.Markup.Substitution

namespace ClassProgression.Markup

-- `pending` are the levels no tag has taken yet. `line` is where the tag stands.
def resolve (scope : Scope) (pending : List Level) (name : String) (line : Nat) :
    Except TagFault (Resolution × List Level) :=
  match Request.ofName name with
  | .className => .ok (.replace scope.className.toList, pending)
  | .nextLevel =>
      match pending with
      | [] => .ok (.deleteLine, [])
      | level :: rest => (Level.phrase [level]).map fun phrase => (.replace phrase.toList, rest)
  | .remainingLevels =>
      if pending.isEmpty then .ok (.deleteLine, [])
      else (Level.phrase pending).map fun phrase => (.replace phrase.toList, [])
  | .allLevels => (Level.phrase scope.levels).map fun phrase => (.replace phrase.toList, pending)
  | .term name =>
      match scope.terms.get? name with
      | some value => .ok (.replace value.toList, pending)
      | none => .error (.unrecognized name line)

def fillFrom (scope : Scope) (text : List Char) (start : Nat) (pending : List Level) :
    Except TagFault (List Char) :=
  match _found : findTag text start with
  | none => .ok text
  | some tag =>
      match resolve scope pending (String.ofList tag.name) (lineNumber text tag.start) with
      | .error fault => .error fault
      | .ok (resolution, later) =>
          fillFrom scope (edit text tag resolution).1 (edit text tag resolution).2 later
termination_by text.length - start
decreasing_by exact edit_shortens text start tag resolution _found

theorem fillFrom_none (scope : Scope) (text : List Char) (position : Nat) (pending : List Level)
    (noTag : findTag text position = none) : fillFrom scope text position pending = .ok text := by
  rw [fillFrom]
  split
  · rfl
  · rename_i tag found
    rw [noTag] at found
    cases found

theorem fillFrom_some (scope : Scope) (text : List Char) (position : Nat) (pending : List Level) (tag : Tag)
    (found : findTag text position = some tag) : fillFrom scope text position pending =
      match resolve scope pending (String.ofList tag.name) (lineNumber text tag.start) with
      | .error fault => .error fault
      | .ok (resolution, later) =>
          fillFrom scope (edit text tag resolution).1 (edit text tag resolution).2 later := by
  rw [fillFrom]
  split
  · rename_i noTag
    rw [found] at noTag
    cases noTag
  · rename_i other same
    rw [found] at same
    cases same
    rfl

namespace LevelCursor

variable (cursor : LevelCursor)

def pending (levels : List Level) : List Level := if cursor.exhausted then [] else levels.drop cursor.visited

section Steps

variable (levels : List Level)

theorem next_pending : (cursor.next levels).1 = (cursor.pending levels).head? ∧
    (cursor.next levels).2.pending levels = (cursor.pending levels).tail := by
  unfold next pending
  split <;> simp_all

theorem rest_pending : (cursor.rest levels).1 = cursor.pending levels ∧ (cursor.rest levels).2.pending levels = [] := by
  have short : levels.drop (min cursor.visited levels.length) = levels.drop cursor.visited := by
    rcases Nat.le_total cursor.visited levels.length with inside | beyond
    · rw [Nat.min_eq_left inside]
    · rw [Nat.min_eq_right beyond, List.drop_length, List.drop_eq_nil_of_le beyond]
  unfold rest pending
  split <;> simp_all

end Steps

-- A step of the cursor is a step of what is left.
theorem resolve_pending (scope : Scope) (name : String) (line : Nat) :
    Markup.resolve scope (cursor.pending scope.levels) name line =
      (cursor.resolve scope name line).map fun step => (step.1, step.2.pending scope.levels) := by
  unfold Markup.resolve resolve
  cases Request.ofName name with
  | className => rfl
  | nextLevel =>
      obtain ⟨given, left⟩ := cursor.next_pending scope.levels
      dsimp only
      generalize cursor.next scope.levels = asked at given left ⊢
      obtain ⟨level, later⟩ := asked
      cases found : cursor.pending scope.levels with
      | nil =>
          rw [found] at given left
          cases given
          simp [Except.map, left]
      | cons first more =>
          rw [found] at given left
          cases given
          dsimp only [List.tail_cons] at left ⊢
          cases Level.phrase [first] <;> simp [Except.map, left]
  | remainingLevels =>
      obtain ⟨given, left⟩ := cursor.rest_pending scope.levels
      dsimp only
      generalize cursor.rest scope.levels = asked at given left ⊢
      obtain ⟨levels, later⟩ := asked
      cases found : cursor.pending scope.levels with
      | nil =>
          rw [found] at given
          cases given
          simp [Except.map, left]
      | cons first more =>
          rw [found] at given
          cases given
          dsimp only [List.isEmpty_cons] at left ⊢
          cases Level.phrase (first :: more) <;> simp [Except.map, left]
  | allLevels => cases Level.phrase scope.levels <;> rfl
  | term name =>
      dsimp only
      cases scope.terms.get? name <;> rfl

theorem fillFrom_pending (scope : Scope) (text : List Char) (start : Nat) :
    cursor.fillFrom scope text start = Markup.fillFrom scope text start (cursor.pending scope.levels) := by
  fun_induction fillFrom scope text start cursor with
  | case1 text start cursor noTag => rw [fillFrom_none scope text start _ noTag]
  | case2 text start cursor tag found fault refused =>
      rw [fillFrom_some scope text start _ tag found, resolve_pending, refused]
      rfl
  | case3 text start cursor tag found resolution later resolved ih =>
      rw [fillFrom_some scope text start _ tag found, resolve_pending, resolved]
      exact ih

end LevelCursor

theorem fill_eq (scope : Scope) (template : List Char) : fill scope template = fillFrom scope template 0 scope.levels :=
  LevelCursor.fillFrom_pending {} scope template 0

end ClassProgression.Markup
