import ClassProgression.Proofs.Feature.RoundTrip
import ClassProgression.Proofs.Table.RoundTrip

namespace ClassProgression

namespace Group

theorem mem_floats (group : Group) (number : Float) : number ∈ group.floats ↔
    ∃ key scalar, group.get? key = some (some scalar) ∧ scalar.float? = some number := by
  rw [floats, List.mem_filterMap]
  constructor
  · rintro ⟨member, listed, float⟩
    obtain ⟨scalar, rfl, float⟩ := Option.bind_eq_some_iff.mp float
    obtain ⟨key, held⟩ := (NameMap.mem_values group _).mp listed
    exact ⟨key, scalar, held, float⟩
  · rintro ⟨key, scalar, held, float⟩
    exact ⟨some scalar, (NameMap.mem_values group _).mpr ⟨key, held⟩, float⟩

theorem floats_insertAll (group added : Group) :
    floats (group.insertAll added.entries) ⊆ group.floats ++ added.floats := by
  intro number member
  obtain ⟨key, scalar, held, float⟩ := (mem_floats _ number).mp member
  rw [NameMap.get?_insertEntries] at held
  rcases Option.or_eq_some_iff.mp held with new | ⟨_, old⟩
  · exact List.mem_append_right _ ((mem_floats added number).mpr ⟨key, scalar, new, float⟩)
  · exact List.mem_append_left _ ((mem_floats group number).mpr ⟨key, scalar, old, float⟩)

theorem floats_learn (group : Group) (names : List String) : floats (group.learn names) ⊆ group.floats := by
  intro number member
  obtain ⟨key, scalar, held, float⟩ := (mem_floats _ number).mp member
  rw [get?_learn] at held
  rcases Option.or_eq_some_iff.mp held with old | ⟨_, blank⟩
  · exact (mem_floats group number).mpr ⟨key, scalar, old, float⟩
  · split at blank <;> cases blank

end Group

namespace Row

def slotFloats (slot : Option Cell) : List Float := (slot.map Cell.floats).getD []

theorem mem_floats (row : Row) (number : Float) :
    number ∈ row.floats ↔ ∃ column, number ∈ slotFloats (row.cell? column) := by
  rw [floats, List.mem_flatMap]
  constructor
  · rintro ⟨slot, listed, float⟩
    obtain ⟨column, held⟩ := (NameMap.mem_values row.columns slot).mp listed
    exact ⟨column, by rw [cell?, held]; exact float⟩
  · rintro ⟨column, float⟩
    cases held : row.columns.get? column with
    | none => rw [cell?, held] at float; cases float
    | some slot =>
        rw [cell?, held] at float
        exact ⟨slot, (NameMap.mem_values row.columns slot).mpr ⟨column, held⟩, float⟩

theorem floats_groupIn (held : Option Cell) : Group.floats (groupIn held) ⊆ slotFloats held := by
  cases held with
  | none => exact List.nil_subset _
  | some cell =>
      cases cell with
      | group members => exact List.Subset.refl _
      | _ => exact List.nil_subset _

theorem slotFloats_landed (cell : Cell) (landing level : Level) (held : Option (Option Cell)) :
    slotFloats (landed cell landing level held) ⊆ slotFloats held.join ++ cell.floats := by
  cases cell with
  | scalar value =>
      simp only [landed]
      split
      · exact List.subset_append_right _ _
      · exact List.subset_append_left _ _
  | list items =>
      simp only [landed]
      split
      · exact List.nil_subset _
      · cases held with
        | none => exact List.nil_subset _
        | some slot => exact List.subset_append_left _ _
  | group members =>
      simp only [landed]
      split
      · refine List.Subset.trans (Group.floats_insertAll _ members) (List.append_subset.mpr ⟨?_, ?_⟩)
        · exact List.Subset.trans (floats_groupIn _) (List.subset_append_left _ _)
        · exact List.subset_append_right _ _
      · split
        · rename_i earlier grouped
          rw [grouped]
          exact List.Subset.trans (Group.floats_learn earlier _) (List.subset_append_left _ _)
        · exact List.subset_append_left _ _

end Row

def Step.floats : Step → List Float
  | .dropped _ => []
  | .placed _ _ cell => cell.floats

namespace Row

theorem floats_place (row : Row) (landing : Level) (column : String) (cell : Cell) :
    (row.place landing column cell).floats ⊆ row.floats ++ cell.floats := by
  have kept : row.floats ⊆ row.floats ++ cell.floats := List.subset_append_left _ _
  unfold place
  split
  · exact kept
  · split
    · split
      · exact kept
      · exact kept
    · intro number member
      obtain ⟨other, float⟩ := (mem_floats _ number).mp member
      rw [cell?, NameMap.get?_insert] at float
      split at float
      · rcases List.mem_append.mp (slotFloats_landed _ _ _ _ float) with old | new
        · exact List.mem_append_left _ ((mem_floats row number).mpr ⟨column, old⟩)
        · exact List.mem_append_right _ new
      · exact List.mem_append_left _ ((mem_floats row number).mpr ⟨other, float⟩)

theorem floats_take (row : Row) (step : Step) : (row.take step).floats ⊆ row.floats ++ step.floats := by
  cases step with
  | dropped level => exact List.subset_append_left _ _
  | placed landing column cell => exact row.floats_place landing column cell

theorem floats_foldl_take (row : Row) (steps : List Step) :
    (steps.foldl take row).floats ⊆ row.floats ++ steps.flatMap Step.floats := by
  induction steps generalizing row with
  | nil => exact List.subset_append_left _ _
  | cons step rest ih =>
      intro number member
      rcases List.mem_append.mp (ih (row.take step) member) with before | later
      · rcases List.mem_append.mp (row.floats_take step before) with old | new
        · exact List.mem_append_left _ old
        · exact List.mem_append_right _ (List.mem_append_left _ new)
      · exact List.mem_append_right _ (List.mem_append_right _ later)

theorem floats_alignCell (keys : Option (List String)) (held : Option Cell) :
    slotFloats (Alignment.alignCell keys held) ⊆ slotFloats held := by
  unfold Alignment.alignCell
  split
  · exact List.Subset.refl _
  · split
    · exact Group.floats_learn {} _
    · rename_i members
      exact Group.floats_learn members _
    · exact List.Subset.refl _

theorem floats_alignRow (rows : List Row) (row : Row) : (Alignment.alignRow (Alignment.plan rows) row).floats ⊆ row.floats := by
  intro number member
  obtain ⟨column, float⟩ := (mem_floats _ number).mp member
  rw [cell?, Alignment.get?_alignRow] at float
  split at float
  · exact (mem_floats row number).mpr ⟨column, floats_alignCell _ _ float⟩
  · cases float

end Row

namespace Table

theorem floats_finish (extent : Extent) (shares : List Contribution) :
    ((Draft.blank extent).applyAll shares).finish.floats ⊆ (Step.ofShares extent shares).flatMap Step.floats := by
  intro number member
  obtain ⟨aligned, listed, float⟩ := List.mem_flatMap.mp member
  obtain ⟨row, inRows, rfl⟩ := List.mem_map.mp listed
  rw [Draft.applyAll_rows] at inRows
  obtain ⟨start, inBlank, rfl⟩ := List.mem_map.mp inRows
  obtain ⟨index, _, rfl⟩ := List.mem_map.mp inBlank
  rcases List.mem_append.mp (Row.floats_foldl_take _ _ (Row.floats_alignRow _ _ float)) with blank | brought
  · cases blank
  · exact brought

theorem mem_floats_compose (className : String) (features : List Feature) (extent : Extent) (number : Float)
    (member : number ∈ (compose className features extent).floats) : ∃ feature ∈ features, number ∈ feature.floats := by
  obtain ⟨step, listed, float⟩ := List.mem_flatMap.mp (floats_finish extent _ member)
  obtain ⟨share, given, made⟩ := List.mem_flatMap.mp listed
  obtain ⟨feature, sorted, own⟩ := List.mem_filterMap.mp given
  obtain ⟨fragment, held, rfl⟩ := Option.map_eq_some_iff.mp own
  refine ⟨feature, List.mem_mergeSort.mp sorted, ?_⟩
  obtain ⟨row, inFragment, ⟨rfl, _⟩ | ⟨landing, column, cell, rfl, _, _, placed⟩⟩ := Step.mem_ofFragment extent fragment step made
  · cases float
  · obtain ⟨binding, bound, progression⟩ := Option.bind_eq_some_iff.mp held
    refine List.mem_flatMap.mpr ⟨row, ?_, ?_⟩
    · refine List.mem_flatMap.mpr ⟨binding, (NameMap.mem_values _ _).mpr ⟨className, bound⟩, ?_⟩
      rw [Binding.rows, progression]
      exact inFragment
    · exact List.mem_flatMap.mpr ⟨cell, (NameMap.mem_values _ _).mpr ⟨column, placed⟩, float⟩

end Table

end ClassProgression
