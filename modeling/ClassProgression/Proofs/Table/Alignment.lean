import ClassProgression.NameMap.Lemmas
import ClassProgression.Table.Alignment
import Mathlib.Data.List.Forall2

namespace ClassProgression

@[simp]
theorem Group.get?_learn (group : Group) (names : List String) (key : String) :
    (group.learn names).get? key = (group.get? key).or (if key ∈ names then some none else none) := by
  simp [Group.learn]

namespace Row

theorem eq_of_parts (left right : Row) (level : left.level = right.level) (features : left.features = right.features)
    (columns : ∀ column, left.columns.get? column = right.columns.get? column) : left = right := by
  have sameColumns := NameMap.eq_of_get? _ _ columns
  cases left
  cases right
  cases level
  cases features
  cases sameColumns
  rfl

theorem group?_eq_some (row : Row) (column : String) (members : Group) :
    row.group? column = some members ↔ row.cell? column = some (.group members) := by
  unfold group?
  cases held : row.cell? column with
  | none => simp
  | some cell => cases cell <;> simp

end Row

namespace Alignment

variable (rows : List Row) (column : String)

def Grouped : Prop := ∃ row ∈ rows, ∃ members, row.group? column = some members

def keysOf : List String := (groupKeys? rows column).getD []

theorem mem_columnNames : column ∈ columnNames rows ↔ ∃ row ∈ rows, column ∈ row.columns.keys := by
  simp [columnNames]

theorem get?_of_unlisted (row : Row) (member : row ∈ rows) (unlisted : column ∉ columnNames rows) :
    row.columns.get? column = none :=
  (row.columns.not_mem_keys column).mp fun own => unlisted ((mem_columnNames rows column).mpr ⟨row, member, own⟩)

theorem groupKeys?_of_grouped (grouped : Grouped rows column) :
    groupKeys? rows column = some (keysOf rows column) := by
  obtain ⟨row, member, members, held⟩ := grouped
  have listed : members ∈ rows.filterMap fun row => row.group? column :=
    List.mem_filterMap.mpr ⟨row, member, held⟩
  unfold keysOf groupKeys?
  split
  · rename_i empty
    rw [empty] at listed
    cases listed
  · rfl

theorem groupKeys?_of_ungrouped (ungrouped : ¬ Grouped rows column) : groupKeys? rows column = none := by
  have empty : (rows.filterMap fun row => row.group? column) = [] := by
    apply List.filterMap_eq_nil_iff.mpr
    intro row member
    exact Option.eq_none_iff_forall_ne_some.mpr fun members held =>
      ungrouped ⟨row, member, members, held⟩
  rw [groupKeys?, empty]

-- The groups of a column decide on its keys, whatever else the rows hold.
theorem groupKeys?_of_groups (others : List Row) (same : rows.map (·.group? column) = others.map (·.group? column)) :
    groupKeys? rows column = groupKeys? others column := by
  have gathered (each : List Row) : (each.filterMap fun row => row.group? column) =
      (each.map (·.group? column)).filterMap id := by
    rw [List.filterMap_map]
    rfl
  rw [groupKeys?, groupKeys?, gathered, gathered, same]

theorem groupKeys?_congr (others : List Row) (same : rows.map (·.cell? column) = others.map (·.cell? column)) :
    groupKeys? rows column = groupKeys? others column := by
  refine groupKeys?_of_groups rows column others ?_
  rw [← List.forall₂_eq_eq_eq, List.forall₂_map_left_iff, List.forall₂_map_right_iff] at same ⊢
  refine same.imp fun row other held => ?_
  unfold Row.group?
  rw [held]

theorem mem_keysOf (key : String) : key ∈ keysOf rows column ↔
    ∃ row ∈ rows, ∃ members, row.group? column = some members ∧ key ∈ members.keys := by
  have gathered : key ∈ keysOf rows column ↔
      key ∈ (rows.filterMap fun row => row.group? column).flatMap fun group => group.keys := by
    unfold keysOf groupKeys?
    split
    · rename_i empty
      simp [empty]
    · simp
  rw [gathered, List.mem_flatMap]
  constructor
  · rintro ⟨members, listed, known⟩
    obtain ⟨row, member, held⟩ := List.mem_filterMap.mp listed
    exact ⟨row, member, members, held, known⟩
  · rintro ⟨row, member, members, held, known⟩
    exact ⟨members, List.mem_filterMap.mpr ⟨row, member, held⟩, known⟩

theorem get?_alignRow (row : Row) : (alignRow (plan rows) row).columns.get? column =
    if column ∈ columnNames rows then some (alignCell (groupKeys? rows column) (row.cell? column))
    else none := by
  have tabulated : (alignRow (plan rows) row).columns =
      NameMap.tabulate (columnNames rows) fun name => alignCell (groupKeys? rows name) (row.cell? name) := by
    simp only [alignRow, plan, List.map_map]
    rfl
  simp [tabulated]

theorem mem_align (row : Row) (member : row ∈ align rows) : ∃ draft ∈ rows,
    row.level = draft.level ∧ row.features = draft.features ∧ ∀ name, row.columns.get? name =
      if name ∈ columnNames rows then some (alignCell (groupKeys? rows name) (draft.cell? name)) else none := by
  obtain ⟨draft, held, rfl⟩ := List.mem_map.mp member
  exact ⟨draft, held, rfl, rfl, fun name => get?_alignRow rows name draft⟩

theorem mem_columns_align (row : Row) (member : row ∈ align rows) :
    column ∈ row.columns.keys ↔ ∃ draft ∈ rows, column ∈ draft.columns.keys := by
  obtain ⟨draft, _, _, _, found⟩ := mem_align rows row member
  rw [NameMap.mem_keys, found, ← mem_columnNames]
  by_cases listed : column ∈ columnNames rows <;> simp [listed]

theorem columns_align : ∀ row ∈ align rows, ∀ other ∈ align rows, ∀ column,
    column ∈ row.columns.keys ↔ column ∈ other.columns.keys := by
  intro row member other otherMember column
  rw [mem_columns_align rows column row member, mem_columns_align rows column other otherMember]

@[simp]
theorem levels_align : (align rows).map (·.level) = rows.map (·.level) := by
  simp [align, alignRow]

-- A cell of an aligned row, for each thing that the row may have held before.

theorem alignCell_ungrouped (held : Option Cell) (ungrouped : ¬ Grouped rows column) :
    alignCell (groupKeys? rows column) held = held := by
  rw [groupKeys?_of_ungrouped rows column ungrouped]
  rfl

@[simp]
theorem alignCell_scalar (value : Scalar) (keys : Option (List String)) :
    alignCell keys (some (.scalar value)) = some (.scalar value) := by
  cases keys <;> rfl

@[simp]
theorem alignCell_list (items : List String) (keys : Option (List String)) :
    alignCell keys (some (.list items)) = some (.list items) := by
  cases keys <;> rfl

theorem alignCell_null (grouped : Grouped rows column) : alignCell (groupKeys? rows column) none =
    some (.group (NameMap.tabulate (keysOf rows column) fun _ => none)) := by
  rw [groupKeys?_of_grouped rows column grouped]
  refine congrArg (fun members => some (Cell.group members)) (NameMap.eq_of_get? _ _ fun key => ?_)
  simp

theorem alignCell_group (row : Row) (member : row ∈ rows) (members : Group)
    (held : row.cell? column = some (.group members)) :
    alignCell (groupKeys? rows column) (some (.group members)) =
      some (.group (NameMap.tabulate (keysOf rows column) fun key => (members.get? key).join)) := by
  have own := (row.group?_eq_some column members).mpr held
  rw [groupKeys?_of_grouped rows column ⟨row, member, members, own⟩]
  refine congrArg (fun members => some (Cell.group members)) (NameMap.eq_of_get? _ _ fun key => ?_)
  cases found : members.get? key with
  | none => simp [found]
  | some value =>
      have known : key ∈ keysOf rows column :=
        (mem_keysOf rows column key).mpr ⟨row, member, members, own, members.mem_keys_of_get? key value found⟩
      simp [known, found]

theorem not_grouped_of_not_mem (unlisted : column ∉ columnNames rows) : ¬ Grouped rows column := by
  intro grouped
  obtain ⟨row, member, members, held⟩ := grouped
  have cell := (row.group?_eq_some column members).mp held
  rw [Row.cell?, get?_of_unlisted rows column row member unlisted] at cell
  cases cell

theorem cell?_alignRow (row : Row) (member : row ∈ rows) : (alignRow (plan rows) row).cell? column =
    alignCell (groupKeys? rows column) (row.cell? column) := by
  rw [Row.cell?, get?_alignRow]
  split
  · rfl
  · rename_i unlisted
    rw [alignCell_ungrouped rows column _ (not_grouped_of_not_mem rows column unlisted), Row.cell?,
      get?_of_unlisted rows column row member unlisted]

theorem grouped_align : Grouped (align rows) column ↔ Grouped rows column := by
  constructor
  · rintro ⟨row, member, members, held⟩
    obtain ⟨draft, inDraft, rfl⟩ := List.mem_map.mp member
    apply Classical.byContradiction
    intro ungrouped
    rw [Row.group?_eq_some, cell?_alignRow rows column draft inDraft,
      alignCell_ungrouped rows column _ ungrouped] at held
    exact ungrouped ⟨draft, inDraft, members, (draft.group?_eq_some column members).mpr held⟩
  · rintro ⟨draft, member, members, held⟩
    have cell := (draft.group?_eq_some column members).mp held
    have aligned := cell?_alignRow rows column draft member
    rw [cell, alignCell_group rows column draft member members cell] at aligned
    exact ⟨_, List.mem_map_of_mem member, _, (Row.group?_eq_some _ column _).mpr aligned⟩

theorem mem_keys_align (row : Row) (member : row ∈ align rows) (members : Group)
    (held : row.group? column = some members) (key : String) :
    key ∈ members.keys ↔ key ∈ keysOf rows column := by
  have grouped := (grouped_align rows column).mp ⟨row, member, members, held⟩
  obtain ⟨draft, inDraft, rfl⟩ := List.mem_map.mp member
  rw [Row.group?_eq_some, cell?_alignRow rows column draft inDraft] at held
  cases cell : draft.cell? column with
  | none =>
      rw [cell, alignCell_null rows column grouped] at held
      cases held
      exact NameMap.mem_keys_tabulate _ _ key
  | some cell' =>
      rw [cell] at held
      cases cell' with
      | scalar value => simp at held
      | list items => simp at held
      | group earlier =>
          rw [alignCell_group rows column draft inDraft earlier cell] at held
          cases held
          exact NameMap.mem_keys_tabulate _ _ key

end Alignment

end ClassProgression
