import ClassProgression.Proofs.Table.Regular

namespace ClassProgression

-- The two steps do not meet: neither in a list of names nor in a column.
structure Step.Apart (first second : Step) : Prop where
  names : ∀ level, first.gained level = [] ∨ second.gained level = []
  columns : ∀ column, column ∉ [levelColumn, featureColumn, featuresColumn] →
    first.landing? column = none ∨ second.landing? column = none

namespace Row

theorem get?_take_reserved (row : Row) (step : Step) (column : String)
    (reserved : column ∈ [levelColumn, featureColumn, featuresColumn]) :
    (row.take step).columns.get? column = row.columns.get? column := by
  cases step with
  | dropped level => rfl
  | placed landing other cell =>
      unfold take
      dsimp only
      unfold place
      split
      · rfl
      · rename_i notLevel
        split
        · split <;> rfl
        · rename_i notNames
          have different : column ≠ other := by
            intro same
            subst same
            simp only [List.mem_cons, List.not_mem_nil, or_false] at reserved
            exact reserved.elim notLevel notNames
          rw [NameMap.get?_insert, if_neg different]

section Ordinary

variable (column : String) (ordinary : column ∉ [levelColumn, featureColumn, featuresColumn])
include ordinary

theorem get?_take_elsewhere (row : Row) (step : Step) (elsewhere : step.landing? column = none) :
    (row.take step).columns.get? column = row.columns.get? column := by
  rw [get?_take column ordinary, elsewhere]

-- What a step makes of a column is settled by the row's level and by what the row held there.
theorem get?_take_congr (row other : Row) (step : Step) (level : row.level = other.level)
    (held : row.columns.get? column = other.columns.get? column) :
    (row.take step).columns.get? column = (other.take step).columns.get? column := by
  rw [get?_take column ordinary, get?_take column ordinary, level, held]

theorem get?_take_take (row : Row) (first second : Step) (elsewhere : second.landing? column = none) :
    ((row.take first).take second).columns.get? column = ((row.take second).take first).columns.get? column := by
  have untouched := get?_take_elsewhere column ordinary row second elsewhere
  rw [get?_take_elsewhere column ordinary (row.take first) second elsewhere]
  exact get?_take_congr column ordinary row (row.take second) first (row.level_take second).symm untouched.symm

end Ordinary

theorem take_comm (row : Row) (first second : Step) (apart : first.Apart second) :
    (row.take first).take second = (row.take second).take first := by
  apply eq_of_parts
  · simp only [level_take]
  · simp only [features_take, level_take, List.append_assoc]
    rcases apart.names row.level with none | none <;> simp [none]
  · intro column
    by_cases reserved : column ∈ [levelColumn, featureColumn, featuresColumn]
    · simp only [get?_take_reserved _ _ column reserved]
    · rcases apart.columns column reserved with elsewhere | elsewhere
      · exact (get?_take_take column reserved row second first elsewhere).symm
      · exact get?_take_take column reserved row first second elsewhere

theorem foldl_take_take (row : Row) (first : Step) (steps : List Step) (apart : ∀ second ∈ steps, first.Apart second) :
    steps.foldl take (row.take first) = (steps.foldl take row).take first := by
  induction steps generalizing row with
  | nil => rfl
  | cons second rest ih =>
      rw [List.foldl_cons, List.foldl_cons, take_comm row first second (apart second List.mem_cons_self)]
      exact ih (row.take second) fun other later => apart other (List.mem_cons_of_mem second later)

theorem foldl_take_comm (row : Row) (left right : List Step) (apart : ∀ first ∈ left, ∀ second ∈ right, first.Apart second) :
    right.foldl take (left.foldl take row) = left.foldl take (right.foldl take row) := by
  induction left generalizing row with
  | nil => rfl
  | cons first rest ih =>
      have further := ih (row.take first) fun other later => apart other (List.mem_cons_of_mem first later)
      rw [List.foldl_cons, List.foldl_cons, further, foldl_take_take row first right (apart first List.mem_cons_self)]

end Row

def Occurs (fragment : List FragmentRow) (column : String) : Prop := ∃ row ∈ fragment, column ∈ row.cells.keys

-- Some row of the fragment that comes to lie at the level has a cell with names.
def BringsNames (extent : Extent) (fragment : List FragmentRow) (level : Nat) : Prop :=
  ∃ row ∈ fragment, Landing.effective extent row.level = level ∧
    (featureColumn ∈ row.cells.keys ∨ featuresColumn ∈ row.cells.keys)

-- The two fragments share no column, and no row of the table is brought names by both.
structure Independent (extent : Extent) (left right : List FragmentRow) : Prop where
  columns : ∀ column, column ∉ [levelColumn, featureColumn, featuresColumn] → ¬ (Occurs left column ∧ Occurs right column)
  names : ∀ level, 1 ≤ level → level ≤ extent.maxLevel.toNat →
    ¬ (BringsNames extent left level ∧ BringsNames extent right level)

namespace Step

variable (extent : Extent) (fragment : List FragmentRow) (step : Step) (member : step ∈ ofFragment extent fragment)
include member

theorem occurs_of_landing? (column : String) (reached : step.landing? column ≠ none) : Occurs fragment column := by
  obtain ⟨row, given, origin⟩ := mem_ofFragment extent fragment step member
  rcases origin with ⟨rfl, _⟩ | ⟨landing, other, cell, rfl, _, _, held⟩
  · exact absurd rfl reached
  · have same : other = column := by
      by_contra different
      exact reached (if_neg different)
    exact ⟨row, given, row.cells.mem_keys_of_get? column cell (same ▸ held)⟩

theorem bringsNames_of_gained (level : Level) (gains : step.gained level ≠ []) :
    1 ≤ level.toNat ∧ level.toNat ≤ extent.maxLevel.toNat ∧ BringsNames extent fragment level.toNat := by
  obtain ⟨row, given, origin⟩ := mem_ofFragment extent fragment step member
  rcases origin with ⟨rfl, _⟩ | ⟨landing, column, cell, rfl, inTable, effective, held⟩
  · exact absurd rfl gains
  · have here : (column = featureColumn ∨ column = featuresColumn) ∧ level = landing := by
      by_contra elsewhere
      exact gains (if_neg elsewhere)
    obtain ⟨names, rfl⟩ := here
    have known := row.cells.mem_keys_of_get? column cell held
    have sameLevel : Landing.effective extent row.level = level.toNat := effective.symm
    refine ⟨sameLevel ▸ inTable.1, sameLevel ▸ inTable.2, row, given, sameLevel, ?_⟩
    rcases names with rfl | rfl
    · exact .inl known
    · exact .inr known

end Step

theorem Independent.apart (extent : Extent) (left right : List FragmentRow) (independent : Independent extent left right) :
    ∀ first ∈ Step.ofFragment extent left, ∀ second ∈ Step.ofFragment extent right, first.Apart second := by
  intro first inLeft second inRight
  constructor
  · intro level
    by_contra both
    rw [not_or] at both
    obtain ⟨low, high, byLeft⟩ := first.bringsNames_of_gained extent left inLeft level both.1
    obtain ⟨_, _, byRight⟩ := second.bringsNames_of_gained extent right inRight level both.2
    exact independent.names level.toNat low high ⟨byLeft, byRight⟩
  · intro column ordinary
    by_contra both
    rw [not_or] at both
    have inFirst := first.occurs_of_landing? extent left inLeft column both.1
    have inSecond := second.occurs_of_landing? extent right inRight column both.2
    exact independent.columns column ordinary ⟨inFirst, inSecond⟩

theorem Draft.apply_comm (draft : Draft) (left right : List FragmentRow) (independent : Independent draft.extent left right) :
    (draft.apply left).apply right = (draft.apply right).apply left := by
  unfold apply
  simp only [foldl_take, List.map_map]
  refine congrArg (Draft.mk draft.extent) (List.map_congr_left fun row _ => ?_)
  exact row.foldl_take_comm _ _ independent.apart

-- Any draft that some run comes to, and any two fragments that do not meet.
theorem independent_fragments_commute (extent : Extent) (shares : List Contribution) (left right : List FragmentRow)
    (independent : Independent extent left right) :
    let draft := (Draft.blank extent).applyAll shares
    ((draft.apply left).apply right).rows = ((draft.apply right).apply left).rows ∧
      ((draft.apply left).apply right).finish = ((draft.apply right).apply left).finish := by
  intro draft
  have kept : draft.extent = extent := by
    simp only [draft, Draft.applyAll_rows]
    rfl
  have same := draft.apply_comm left right (kept ▸ independent)
  rw [same]
  exact ⟨rfl, rfl⟩

-- A group over a group and a scalar over a list. Both fragments bring names, and meet only above the table.
theorem slots_and_die_commute :
    let row (level : Level) (cells : List (String × Cell)) : FragmentRow := ⟨level, NameMap.ofList cells⟩
    let slots (key : String) := Cell.group (NameMap.ofList [(key, none)])
    let epic := row 9 [("Feature", .scalar (.text "Epic"))]
    let left := [epic, row 1 [("Slots", slots "2nd"), ("Feature", .scalar (.text "Song")), ("Level", .list [])]]
    let right := [row 2 [("Features", .list ["Lore"])], row 1 [("Die", .scalar (.text "d6")), ("Level", .list [])], epic]
    let extent : Extent := {maxLevel := 3, offset := 1}
    let draft := (Draft.blank extent).applyAll [⟨"hum", [row 0 [("Slots", slots "1st"), ("Die", .list ["d4"])]]⟩]
    Independent extent left right ∧ ((draft.apply left).apply right).rows = ((draft.apply right).apply left).rows ∧
      ((draft.apply left).apply right).finish = ((draft.apply right).apply left).finish := by
  intro row slots epic left right extent draft
  have columns : ∀ one ∈ left, ∀ other ∈ right, ∀ column ∈ one.cells.keys, column ∈ other.cells.keys →
      column ∈ [levelColumn, featureColumn, featuresColumn] := by decide +kernel
  have names : ∀ one ∈ left, ∀ other ∈ right, Landing.effective extent one.level = Landing.effective extent other.level →
      Landing.effective extent one.level ≤ 3 → featureColumn ∈ one.cells.keys ∨ featuresColumn ∈ one.cells.keys →
      ¬ (featureColumn ∈ other.cells.keys ∨ featuresColumn ∈ other.cells.keys) := by decide +kernel
  have independent : Independent extent left right := by
    constructor
    · intro column ordinary both
      obtain ⟨⟨one, inLeft, held⟩, other, inRight, otherHeld⟩ := both
      exact ordinary (columns one inLeft other inRight column held otherHeld)
    · intro level _ high both
      obtain ⟨⟨one, inLeft, sameLevel, held⟩, other, inRight, otherLevel, otherHeld⟩ := both
      exact names one inLeft other inRight (sameLevel.trans otherLevel.symm) (sameLevel ▸ high) held otherHeld
  exact ⟨independent, independent_fragments_commute extent _ left right independent⟩

end ClassProgression
