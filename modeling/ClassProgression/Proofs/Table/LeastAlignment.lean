import ClassProgression.Proofs.Table.Stepwise

namespace ClassProgression

-- The second group has the values of the first, and under keys of its own nothing but nulls.
structure Group.Widened (members more : Group) : Prop where
  kept : ∀ key value, members.get? key = some value → more.get? key = some value
  added : ∀ key ∈ more.keys, key ∉ members.keys → more.get? key = some none

theorem Group.Widened.refl (members : Group) : members.Widened members where
  kept _ _ held := held
  added _ own other := absurd own other

-- Where there was nothing, there may be a group of nulls now.
inductive Cell.Widened : Option Cell → Option Cell → Prop where
  | same (held : Option Cell) : Widened held held
  | nulls (members : Group) (widened : Group.Widened {} members) : Widened none (some (.group members))
  | group (members more : Group) (widened : members.Widened more) : Widened (some (.group members)) (some (.group more))

structure Row.Widened (row other : Row) : Prop where
  level : other.level = row.level
  features : other.features = row.features
  columns : ∀ column ∈ row.columns.keys, column ∈ other.columns.keys
  cells : ∀ column, Cell.Widened (row.cell? column) (other.cell? column)

-- Rows with the same columns, and with nothing left to fill in.
structure Rectangular (rows : List Row) : Prop extends Uniform rows where
  columns : ∀ row ∈ rows, ∀ other ∈ rows, ∀ column, column ∈ row.columns.keys ↔ column ∈ other.columns.keys

theorem Rectangular.align (rows : List Row) : Rectangular (Alignment.align rows) where
  toUniform := .align rows
  columns := Alignment.columns_align rows

theorem slot_eq (left right : Option (Option α)) (present : left.isSome ↔ right.isSome) (held : left.join = right.join) :
    left = right := by
  cases left with
  | none =>
      cases right with
      | none => rfl
      | some _ => exact absurd (present.mpr rfl) Bool.false_ne_true
  | some value =>
      cases right with
      | none => exact absurd (present.mp rfl) Bool.false_ne_true
      | some other => exact congrArg some held

theorem Row.get?_eq (row other : Row) (column : String) (columns : column ∈ row.columns.keys ↔ column ∈ other.columns.keys)
    (cells : row.cell? column = other.cell? column) : row.columns.get? column = other.columns.get? column := by
  rw [NameMap.mem_keys, NameMap.mem_keys] at columns
  exact slot_eq _ _ columns cells

namespace Alignment

-- The second group is the first one with exactly the keys of the column's groups.
structure Completed (rows : List Row) (column : String) (members more : Group) : Prop extends members.Widened more where
  known : ∀ key, key ∈ more.keys ↔ ∃ row ∈ rows, ∃ group, row.group? column = some group ∧ key ∈ group.keys

inductive Filled (rows : List Row) (column : String) : Option Cell → Option Cell → Prop where
  | scalar (value : Scalar) : Filled rows column (some (.scalar value)) (some (.scalar value))
  | list (items : List String) : Filled rows column (some (.list items)) (some (.list items))
  | null (ungrouped : ¬ Grouped rows column) : Filled rows column none none
  | nulls (members : Group) (grouped : Grouped rows column) (completed : Completed rows column {} members) :
      Filled rows column none (some (.group members))
  | group (members more : Group) (completed : Completed rows column members more) :
      Filled rows column (some (.group members)) (some (.group more))

structure Aligned (rows : List Row) (row other : Row) : Prop where
  level : other.level = row.level
  features : other.features = row.features
  columns : ∀ column, column ∈ other.columns.keys ↔ ∃ origin ∈ rows, column ∈ origin.columns.keys
  cells : ∀ column, Filled rows column (row.cell? column) (other.cell? column)

section Column

variable (rows : List Row) (column : String)

theorem Completed.of_tabulate (members : Group) (inColumn : ∀ key ∈ members.keys, key ∈ keysOf rows column) :
    Completed rows column members (NameMap.tabulate (keysOf rows column) fun key => (members.get? key).join) where
  kept key value held := by
    simp [inColumn key (members.mem_keys_of_get? key value held), held]
  added key own absent := by
    have listed : key ∈ keysOf rows column := by simpa using own
    simp [listed, (members.not_mem_keys key).mp absent]
  known key := by simp [mem_keysOf]

theorem Completed.eq_tabulate (members more : Group) (completed : Completed rows column members more) :
    more = NameMap.tabulate (keysOf rows column) fun key => (members.get? key).join := by
  refine NameMap.eq_of_get? _ _ fun key => ?_
  have known : key ∈ keysOf rows column ↔ key ∈ more.keys := (mem_keysOf rows column key).trans (completed.known key).symm
  cases held : members.get? key with
  | some value =>
      have own := completed.kept key value held
      simp [known.mpr (more.mem_keys_of_get? key value own), own, held]
  | none =>
      by_cases listed : key ∈ keysOf rows column
      · simp [listed, completed.added key (known.mp listed) ((members.not_mem_keys key).mpr held), held]
      · simpa [listed] using (more.not_mem_keys key).mp (mt known.mpr listed)

theorem Filled.of_alignCell (row : Row) (member : row ∈ rows) :
    Filled rows column (row.cell? column) (alignCell (groupKeys? rows column) (row.cell? column)) := by
  cases held : row.cell? column with
  | none =>
      by_cases grouped : Grouped rows column
      · rw [alignCell_null rows column grouped]
        exact .nulls _ grouped (.of_tabulate rows column {} fun key own => nomatch own)
      · rw [alignCell_ungrouped rows column none grouped]
        exact .null grouped
  | some cell =>
      cases cell with
      | scalar value => simpa using .scalar value
      | list items => simpa using .list items
      | group members =>
          rw [alignCell_group rows column row member members held]
          refine .group members _ (.of_tabulate rows column members fun key own => ?_)
          exact (mem_keysOf rows column key).mpr ⟨row, member, members, (row.group?_eq_some column members).mpr held, own⟩

variable (held left right : Option Cell)

theorem Filled.unique (first : Filled rows column held left) (second : Filled rows column held right) : left = right := by
  cases first with
  | scalar value => cases second; rfl
  | list items => cases second; rfl
  | null ungrouped =>
      cases second with
      | null => rfl
      | nulls _ grouped => exact absurd grouped ungrouped
  | nulls members grouped completed =>
      cases second with
      | null ungrouped => exact absurd grouped ungrouped
      | nulls others _ again => rw [completed.eq_tabulate, again.eq_tabulate]
  | group members more completed =>
      cases second with
      | group _ others again => rw [completed.eq_tabulate, again.eq_tabulate]

theorem Filled.widened (filled : Filled rows column held left) : Cell.Widened held left := by
  cases filled with
  | scalar => exact .same _
  | list => exact .same _
  | null => exact .same _
  | nulls members _ completed => exact .nulls members completed.toWidened
  | group members more completed => exact .group members more completed.toWidened

end Column

section Rows

variable (rows : List Row)

theorem Aligned.of_alignRow (row : Row) (member : row ∈ rows) : Aligned rows row (alignRow (plan rows) row) where
  level := rfl
  features := rfl
  columns column := mem_columns_align rows column _ (List.mem_map_of_mem member)
  cells column := by
    rw [cell?_alignRow rows column row member]
    exact .of_alignCell rows column row member

theorem Aligned.unique (row left right : Row) (first : Aligned rows row left) (second : Aligned rows row right) :
    left = right := by
  refine left.eq_of_parts right (first.level.trans second.level.symm) (first.features.trans second.features.symm) ?_
  intro column
  apply left.get?_eq right column
  · exact (first.columns column).trans (second.columns column).symm
  · exact (first.cells column).unique _ _ _ _ _ (second.cells column)

theorem aligned_align : List.Forall₂ (Aligned rows) rows (align rows) :=
  List.forall₂_map_right_iff.mpr (List.forall₂_same.mpr (Aligned.of_alignRow rows))

-- Row by row, this is all that alignment does.
theorem aligned_iff (result : List Row) : List.Forall₂ (Aligned rows) rows result ↔ result = align rows := by
  constructor
  · intro aligned
    exact List.right_unique_forall₂' (fun row left right => Aligned.unique rows row left right) aligned (aligned_align rows)
  · intro same
    rw [same]
    exact aligned_align rows

theorem Aligned.widened (row other : Row) (member : row ∈ rows) (aligned : Aligned rows row other) : row.Widened other where
  level := aligned.level
  features := aligned.features
  columns column own := (aligned.columns column).mpr ⟨row, member, own⟩
  cells column := (aligned.cells column).widened rows column _ _

theorem widened_align : List.Forall₂ Row.Widened rows (align rows) :=
  List.forall₂_map_right_iff.mpr (List.forall₂_same.mpr fun row member =>
    (Aligned.of_alignRow rows row member).widened rows row _ member)

end Rows

section Least

variable (rows : List Row) (column : String)

theorem Completed.least (members filled more : Group) (completed : Completed rows column members filled)
    (widened : members.Widened more) (reached : ∀ key ∈ keysOf rows column, key ∈ more.keys) : filled.Widened more where
  kept key value held := by
    have own := filled.mem_keys_of_get? key value held
    have listed := (mem_keysOf rows column key).mpr ((completed.known key).mp own)
    cases earlier : members.get? key with
    | some given =>
        rw [completed.kept key given earlier] at held
        rw [widened.kept key given earlier, held]
    | none =>
        have absent := (members.not_mem_keys key).mpr earlier
        rw [completed.added key own absent] at held
        rw [widened.added key (reached key listed) absent, held]
  added key own absent := by
    refine widened.added key own fun given => absent ?_
    obtain ⟨value, held⟩ := members.exists_of_mem_keys key given
    exact filled.mem_keys_of_get? key value (completed.kept key value held)

-- Whatever else a slot is widened to, it is at least what alignment makes of it.
theorem Filled.least (held filled other : Option Cell) (aligned : Filled rows column held filled)
    (widened : Cell.Widened held other) (occupied : Grouped rows column → other ≠ none)
    (reached : ∀ more, other = some (.group more) → ∀ key ∈ keysOf rows column, key ∈ more.keys) :
    Cell.Widened filled other := by
  cases aligned with
  | scalar => exact widened
  | list => exact widened
  | null => exact widened
  | nulls members grouped completed =>
      cases widened with
      | same => exact absurd rfl (occupied grouped)
      | nulls more empty => exact .group members more (completed.least rows column {} members more empty (reached more rfl))
  | group members filled completed =>
      cases widened with
      | same => exact .group filled members (completed.least rows column _ _ _ (.refl members) (reached members rfl))
      | group _ more further => exact .group filled more (completed.least rows column _ _ _ further (reached more rfl))

variable (others : List Row) (widened : List.Forall₂ Row.Widened rows others) (rectangular : Rectangular others)
include widened

theorem group_of_widened (row : Row) (member : row ∈ rows) (members : Group) (held : row.group? column = some members) :
    ∃ other ∈ others, ∃ more, other.group? column = some more ∧ members.Widened more := by
  obtain ⟨other, inOthers, pair⟩ := exists_of_forall₂ _ rows others widened row member
  have cells := pair.cells column
  rw [(row.group?_eq_some column members).mp held] at cells
  generalize further : other.cell? column = cell at cells
  cases cells with
  | same => exact ⟨other, inOthers, members, (other.group?_eq_some column members).mpr further, .refl members⟩
  | group _ more wider => exact ⟨other, inOthers, more, (other.group?_eq_some column more).mpr further, wider⟩

include rectangular

theorem columns_of_widened (listed : ∃ row ∈ rows, column ∈ row.columns.keys) :
    ∀ other ∈ others, column ∈ other.columns.keys := by
  obtain ⟨row, member, own⟩ := listed
  obtain ⟨wider, inOthers, pair⟩ := exists_of_forall₂ _ rows others widened row member
  intro other otherMember
  exact (rectangular.columns wider inOthers other otherMember column).mp (pair.columns column own)

theorem keys_of_widened (other : Row) (member : other ∈ others) (more : Group) (held : other.group? column = some more) :
    ∀ key ∈ keysOf rows column, key ∈ more.keys := by
  intro key listed
  obtain ⟨row, inRows, members, own, known⟩ := (mem_keysOf rows column key).mp listed
  obtain ⟨wider, inOthers, group, further, same⟩ := group_of_widened rows column others widened row inRows members own
  obtain ⟨value, found⟩ := members.exists_of_mem_keys key known
  exact (rectangular.keys column wider inOthers other member group more further held key).mp
    (group.mem_keys_of_get? key value (same.kept key value found))

omit column in
theorem align_least : List.Forall₂ Row.Widened (align rows) others := by
  obtain ⟨length, pairs⟩ := List.forall₂_iff_zip.mp widened
  refine List.forall₂_map_left_iff.mpr (List.forall₂_iff_zip.mpr ⟨length, fun {row other} paired => ?_⟩)
  have ⟨member, otherMember⟩ := List.of_mem_zip paired
  have aligned := Aligned.of_alignRow rows row member
  have pair := pairs paired
  refine ⟨pair.level.trans aligned.level.symm, pair.features.trans aligned.features.symm, fun column own => ?_, fun column => ?_⟩
  · have listed := (aligned.columns column).mp own
    exact columns_of_widened rows column others widened rectangular listed other otherMember
  · apply (aligned.cells column).least rows column _ _ _ (pair.cells column)
    · intro grouped
      obtain ⟨origin, inRows, members, held⟩ := grouped
      obtain ⟨wider, inOthers, more, further, _⟩ := group_of_widened rows column others widened origin inRows members held
      exact rectangular.filled column ⟨wider, inOthers, more, further⟩ other otherMember
    · intro more held
      have group := (other.group?_eq_some column more).mpr held
      exact keys_of_widened rows column others widened rectangular other otherMember more group

end Least

end Alignment

-- What alignment does to each row, and that nothing less would do.
theorem alignment_is_least_extension (rows : List Row) :
    let aligned := Alignment.align rows
    (∀ result, List.Forall₂ (Alignment.Aligned rows) rows result ↔ result = aligned) ∧
    List.Forall₂ Row.Widened rows aligned ∧ Rectangular aligned ∧
    (∀ others, Rectangular others → List.Forall₂ Row.Widened rows others → List.Forall₂ Row.Widened aligned others) ∧
    Alignment.align aligned = aligned := by
  intro aligned
  have rectangular : Rectangular aligned := .align rows
  refine ⟨Alignment.aligned_iff rows, Alignment.widened_align rows, rectangular, ?_, ?_⟩
  · intro others otherRectangular widened
    exact Alignment.align_least rows others widened otherRectangular
  · exact rectangular.align_eq_self aligned rectangular.columns

-- One column with a list, a text, a null, groups of different keys and an empty one, and a row that lacks it.
theorem mixed_column_aligned :
    let pool (entries : List (String × Option Scalar)) : Option Cell := some (.group (NameMap.ofList entries))
    let row (level : Level) (entries : List (String × Option Cell)) : Row := ⟨level, [], NameMap.ofList entries⟩
    let rows := [row 3 [("Pool", pool [("x", some (.integer 1))])], row 1 [("Pool", some (.list ["a"])), ("Die", none)],
      row 1 [("Pool", some (.scalar (.text "d8")))], row 2 [("Pool", none)], row 4 [], row 2 [("Pool", pool [])],
      row 2 [("Pool", pool [("y", none)])]]
    let aligned := [row 3 [("Die", none), ("Pool", pool [("x", some (.integer 1)), ("y", none)])],
      row 1 [("Die", none), ("Pool", some (.list ["a"]))], row 1 [("Die", none), ("Pool", some (.scalar (.text "d8")))],
      row 2 [("Die", none), ("Pool", pool [("x", none), ("y", none)])],
      row 4 [("Die", none), ("Pool", pool [("x", none), ("y", none)])],
      row 2 [("Die", none), ("Pool", pool [("x", none), ("y", none)])],
      row 2 [("Die", none), ("Pool", pool [("x", none), ("y", none)])]]
    List.Forall₂ (Alignment.Aligned rows) rows aligned ∧ Rectangular aligned ∧ Alignment.align aligned = aligned := by
  intro pool row rows aligned
  have result : aligned = Alignment.align rows := by decide +kernel
  obtain ⟨exact, _, rectangular, _, again⟩ := alignment_is_least_extension rows
  refine ⟨(exact aligned).mpr result, ?_, ?_⟩
  · rw [result]
    exact rectangular
  · rw [result]
    exact again

end ClassProgression
