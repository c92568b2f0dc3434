import ClassProgression.Proofs.Table.Writers

namespace ClassProgression

open Landing in
-- What a finished table holds at a level of a column in which something has landed.
inductive Settled (table : Table) (column : String) (landings : List Landing) (level : Nat) : Option Cell → Prop where
  | emptyList (unwritten : writers level landings = []) (opens : opensWithList landings = true) :
      Settled table column landings level (some (.list []))
  | nulls (unwritten : writers level landings = []) (opens : opensWithList landings = false)
      (grouped : Alignment.Grouped table.rows column) : Settled table column landings level
        (some (.group (NameMap.tabulate (columnKeys landings table.rows.length) fun _ => none)))
  | nothing (unwritten : writers level landings = []) (opens : opensWithList landings = false)
      (ungrouped : ¬ Alignment.Grouped table.rows column) : Settled table column landings level none
  | scalar (value : Scalar) (last : lastCell? level landings = some (.scalar value)) :
      Settled table column landings level (some (.scalar value))
  | list (items : List String) (last : lastCell? level landings = some (.list items)) :
      Settled table column landings level (some (.list (listRun level landings)))
  | group (members : Group) (last : lastCell? level landings = some (.group members)) :
      Settled table column landings level (some (.group
        (NameMap.tabulate (columnKeys landings table.rows.length) (lastValue (groupRun level landings)))))

theorem Settled.unique (table : Table) (column : String) (landings : List Landing) (level : Nat)
    (left right : Option Cell) (first : Settled table column landings level left)
    (second : Settled table column landings level right) : left = right := by
  have unwritten {cell : Cell} (empty : Landing.writers level landings = [])
      (last : Landing.lastCell? level landings = some cell) : False := by
    simp [(Landing.lastCell?_eq_none level landings).mpr empty] at last
  cases first <;> cases second <;> grind

namespace Draft

theorem levels_applyAll (extent : Extent) (shares : List Contribution) :
    ((blank extent).applyAll shares).rows.map (·.level.toNat) = List.range' 1 extent.maxLevel.toNat := by
  rw [applyAll_rows, List.map_map]
  simp only [blank, List.map_map, List.range'_eq_map_range]
  apply List.map_congr_left
  intro index inside
  have fits : index + 1 < UInt32.size :=
    Nat.lt_of_le_of_lt (List.mem_range.mp inside) extent.maxLevel.toNat_lt_size
  simp only [Function.comp_apply, Row.level_foldl_take, UInt32.toNat_ofNat_of_lt' fits]
  exact Nat.add_comm index 1

@[simp]
theorem length_finish (extent : Extent) (shares : List Contribution) :
    ((blank extent).applyAll shares).finish.rows.length = extent.maxLevel.toNat := by
  have levels := congrArg List.length (levels_applyAll extent shares)
  simpa [finish, Alignment.align] using levels

variable (extent : Extent) (shares : List Contribution) (column : String)
  (ordinary : column ∉ [levelColumn, featureColumn, featuresColumn])
include ordinary

theorem get?_applyAll (row : Row) (member : row ∈ ((blank extent).applyAll shares).rows) :
    row.columns.get? column = Landing.slot row.level.toNat (Landing.ofShares extent column shares) := by
  rw [applyAll_rows] at member
  obtain ⟨start, inBlank, rfl⟩ := List.mem_map.mp member
  obtain ⟨index, _, rfl⟩ := List.mem_map.mp inBlank
  rw [Row.get?_foldl_take column ordinary _ rfl]
  simp [blank]

theorem group?_applyAll (row : Row) (member : row ∈ ((blank extent).applyAll shares).rows) (held : Group)
    (found : row.group? column = some held) :
    held = Landing.gathered row.level.toNat (Landing.ofShares extent column shares) := by
  have cell := (row.group?_eq_some column held).mp found
  rw [Row.cell?, get?_applyAll extent shares column ordinary row member] at cell
  rw [← Landing.groupIn_slot, cell]
  rfl

-- A row that learned keys still holds a group when the run ends.
theorem group?_of_learned (row : Row) (member : row ∈ ((blank extent).applyAll shares).rows) (key : String)
    (learned : key ∈ Landing.learnedKeys row.level.toNat (Landing.ofShares extent column shares)) :
    row.group? column = some (Landing.gathered row.level.toNat (Landing.ofShares extent column shares)) := by
  generalize landed : Landing.ofShares extent column shares = landings at learned ⊢
  have since : Landing.sinceGrouped row.level.toNat landings ≠ [] := fun empty => by
    simp [Landing.learnedKeys, empty] at learned
  have grouped : ∃ members, Landing.lastCell? row.level.toNat landings = some (.group members) := by
    simpa using mt (Landing.sinceGrouped_eq_nil row.level.toNat landings).mpr since
  obtain ⟨members, last⟩ := grouped
  have inhabited : landings ≠ [] := fun empty => by simp [Landing.lastCell?, Landing.writers, empty] at last
  rw [Row.group?_eq_some, Row.cell?, get?_applyAll extent shares column ordinary row member, landed,
    Landing.slot_of_ne_nil _ _ inhabited, Option.join_some, Landing.drafted, last]

theorem mem_keysOf_applyAll (key : String) :
    key ∈ Alignment.keysOf ((blank extent).applyAll shares).rows column ↔
      key ∈ Landing.columnKeys (Landing.ofShares extent column shares) extent.maxLevel.toNat := by
  rw [Alignment.mem_keysOf, Landing.columnKeys, List.mem_flatMap, ← levels_applyAll extent shares]
  constructor
  · rintro ⟨row, member, held, found, known⟩
    rw [group?_applyAll extent shares column ordinary row member held found] at known
    exact ⟨row.level.toNat, List.mem_map_of_mem member, (NameMap.mem_keys_tabulate _ _ key).mp known⟩
  · rintro ⟨level, given, learned⟩
    obtain ⟨row, member, rfl⟩ := List.mem_map.mp given
    refine ⟨row, member, _, group?_of_learned extent shares column ordinary row member key learned, ?_⟩
    exact (NameMap.mem_keys_tabulate _ _ key).mpr learned

theorem mem_columns_applyAll (row : Row) (member : row ∈ ((blank extent).applyAll shares).rows) :
    column ∈ row.columns.keys ↔ Landing.ofShares extent column shares ≠ [] := by
  rw [NameMap.mem_keys, get?_applyAll extent shares column ordinary row member, Landing.slot]
  split <;> simp [*]

theorem settled_align (row : Row) (member : row ∈ ((blank extent).applyAll shares).rows)
    (landed : Landing.ofShares extent column shares ≠ []) :
    Settled ((blank extent).applyAll shares).finish column (Landing.ofShares extent column shares) row.level.toNat
      (Alignment.alignCell (Alignment.groupKeys? ((blank extent).applyAll shares).rows column) (row.cell? column)) := by
  have cell : row.cell? column = Landing.drafted row.level.toNat (Landing.ofShares extent column shares) := by
    rw [Row.cell?, get?_applyAll extent shares column ordinary row member, Landing.slot_of_ne_nil _ _ landed]
    rfl
  have sameKeys := mem_keysOf_applyAll extent shares column ordinary
  rw [← length_finish extent shares] at sameKeys
  rw [cell, Landing.drafted]
  split
  · rename_i last
    have unwritten := (Landing.lastCell?_eq_none _ _).mp last
    split
    · rename_i opens
      simpa using .emptyList unwritten opens
    · rename_i opens
      by_cases grouped : Alignment.Grouped ((blank extent).applyAll shares).rows column
      · rw [Alignment.alignCell_null _ _ grouped, NameMap.tabulate_congr _ _ _ _ sameKeys fun _ _ => rfl]
        exact .nulls unwritten (by simpa using opens) ((Alignment.grouped_align _ column).mpr grouped)
      · rw [Alignment.alignCell_ungrouped _ _ _ grouped]
        exact .nothing unwritten (by simpa using opens) fun aligned =>
          grouped ((Alignment.grouped_align _ column).mp aligned)
  · rename_i value last
    simpa using .scalar value last
  · rename_i items last
    simpa using .list items last
  · rename_i members last
    have held := cell
    rw [Landing.drafted, last] at held
    rw [Alignment.alignCell_group _ column row member _ held,
      NameMap.tabulate_congr _ _ _ (Landing.lastValue (Landing.groupRun row.level.toNat _)) sameKeys]
    · exact .group members last
    · intro key _
      rw [Landing.gathered, NameMap.get?_tabulate]
      split
      · rfl
      · rename_i unknown
        exact (Landing.lastValue_groupRun _ _ key unknown).symm

end Draft

-- The table of any run of fragments, column by column.
theorem finished_by_last_writer (extent : Extent) (shares : List Contribution) (column : String)
    (ordinary : column ∉ [levelColumn, featureColumn, featuresColumn]) :
    let table := ((Draft.blank extent).applyAll shares).finish
    let landings := Landing.ofShares extent column shares
    let lands := ∃ share ∈ shares, ∃ row ∈ share.fragment,
      Landing.InTable extent row.level ∧ column ∈ row.cells.keys
    table.rows.map (·.level.toNat) = List.range' 1 extent.maxLevel.toNat ∧
    (0 < extent.maxLevel.toNat → (column ∈ table.columnNames ↔ lands)) ∧
    ∀ row ∈ table.rows, (column ∈ row.columns.keys ↔ lands) ∧
      (lands → ∀ held, row.columns.get? column = some held ↔
        Settled table column landings row.level.toNat held) := by
  intro table landings lands
  have landed : landings ≠ [] ↔ lands := Landing.ofShares_ne_nil extent column shares
  have columns : ∀ row ∈ table.rows, column ∈ row.columns.keys ↔ lands := by
    intro row member
    obtain ⟨draft, inDraft, _⟩ := Alignment.mem_align _ row member
    rw [Alignment.mem_columns_align _ column row member, ← landed]
    constructor
    · rintro ⟨other, inDraft, holds⟩
      exact (Draft.mem_columns_applyAll extent shares column ordinary other inDraft).mp holds
    · intro inhabited
      exact ⟨draft, inDraft, (Draft.mem_columns_applyAll extent shares column ordinary draft inDraft).mpr inhabited⟩
  refine ⟨?_, ?_, ?_⟩
  · have levels := congrArg (List.map UInt32.toNat)
      (Alignment.levels_align ((Draft.blank extent).applyAll shares).rows)
    rw [List.map_map, List.map_map] at levels
    exact levels.trans (Draft.levels_applyAll extent shares)
  · intro positive
    rw [← Draft.length_finish extent shares] at positive
    unfold Table.columnNames
    split
    · rename_i empty
      rw [empty] at positive
      cases positive
    · rename_i first rest rows
      exact columns first (by rw [rows]; exact List.mem_cons_self)
  · intro row member
    refine ⟨columns row member, fun reached => ?_⟩
    obtain ⟨draft, inDraft, level, _, found⟩ := Alignment.mem_align _ row member
    have listed : column ∈ Alignment.columnNames ((Draft.blank extent).applyAll shares).rows :=
      (Alignment.mem_columnNames _ column).mpr ⟨draft, inDraft,
        (Draft.mem_columns_applyAll extent shares column ordinary draft inDraft).mpr (landed.mpr reached)⟩
    have settled := Draft.settled_align extent shares column ordinary draft inDraft (landed.mpr reached)
    intro held
    rw [found, if_pos listed, level, Option.some.injEq]
    constructor
    · rintro rfl
      exact settled
    · exact settled.unique _ _ _ _ _ _

-- A group laid over the upper part of a carried scalar.
theorem pool_by_last_writer :
    let extent : Extent := {maxLevel := 4, offset := 1}
    let shares : List Contribution :=
      [⟨"a", [⟨1, NameMap.ofList [("Pool", .scalar (.integer 3))]⟩]⟩,
       ⟨"b", [⟨3, NameMap.ofList [("Pool", .group (NameMap.ofList [("x", some (.integer 1))]))]⟩]⟩]
    "Pool" ∉ [levelColumn, featureColumn, featuresColumn] ∧
    ∀ row ∈ ((Draft.blank extent).applyAll shares).finish.rows,
      (row.level = 3 → row.columns.get? "Pool" = some (some (.scalar (.integer 3)))) ∧
      (row.level = 4 → row.columns.get? "Pool" =
        some (some (.group (NameMap.ofList [("x", some (.integer 1))])))) := by
  intro extent shares
  have ordinary : "Pool" ∉ [levelColumn, featureColumn, featuresColumn] := by decide
  refine ⟨ordinary, fun row member => ?_⟩
  have law := (finished_by_last_writer extent shares "Pool" ordinary).2.2 row member
  have settled := law.2 ((Landing.ofShares_ne_nil extent "Pool" shares).mp (by decide +kernel))
  refine ⟨fun level => (settled _).mpr ?_, fun level => (settled _).mpr ?_⟩
  · rw [level]
    exact .scalar _ (by decide +kernel)
  · have laid : NameMap.ofList [("x", some (.integer 1))] = NameMap.tabulate
        (Landing.columnKeys (Landing.ofShares extent "Pool" shares)
          ((Draft.blank extent).applyAll shares).finish.rows.length)
        (Landing.lastValue (Landing.groupRun 4 (Landing.ofShares extent "Pool" shares))) := by decide +kernel
    rw [level, laid]
    exact .group (NameMap.ofList [("x", some (.integer 1))]) (by decide +kernel)

end ClassProgression
