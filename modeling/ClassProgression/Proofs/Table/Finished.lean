import ClassProgression.Proofs.Table.Stepwise

namespace ClassProgression

-- What the rows of a finished table look like, whichever way it came about.
structure Finished (rows : List Row) : Prop extends Uniform rows where
  ascending : rows.Pairwise fun lower higher => lower.level < higher.level
  columns : ∀ row ∈ rows, ∀ other ∈ rows, ∀ column, column ∈ row.columns.keys ↔ column ∈ other.columns.keys

-- Alignment does the rest once the levels are in order.
theorem Finished.align (rows : List Row) (ascending : rows.Pairwise fun lower higher => lower.level < higher.level) :
    Finished (Alignment.align rows) where
  toUniform := Uniform.align rows
  ascending := List.pairwise_map.mpr ascending
  columns := Alignment.columns_align rows

namespace Table

theorem finished_finish (extent : Extent) (shares : List Contribution) :
    Finished ((Draft.blank extent).applyAll shares).finish.rows :=
  .align _ ((Draft.applyAll_regular _ _ shares (Draft.blank_regular extent)).ascending _ _)

theorem finished_of_merge (tables : List Table) (table : Table) (merged : merge tables = .ok table) :
    Finished table.rows := by
  obtain ⟨rows, accepted, rfl⟩ := merge_eq_ok tables table merged
  exact .align rows (mergeRows_valid _ rows accepted).ascending

-- Every row opens its own level, and alignment finds nothing to fill in.
theorem merge_of_finished (table : Table) (finished : Finished table.rows) : merge [table] = .ok table := by
  have rows : [table].flatMap (·.rows) = table.rows := List.flatMap_singleton _ _
  rw [merge, rows, mergeRows_ascending _ finished.ascending]
  exact congrArg (fun rows => Except.ok (Table.mk rows)) (finished.align_eq_self _ finished.columns)

theorem merge_eq_self_iff (table : Table) : merge [table] = .ok table ↔ Finished table.rows :=
  ⟨finished_of_merge [table] table, merge_of_finished table⟩

theorem merge_finish (extent : Extent) (shares : List Contribution) :
    merge [((Draft.blank extent).applyAll shares).finish] = .ok ((Draft.blank extent).applyAll shares).finish :=
  merge_of_finished _ (finished_finish extent shares)

inductive Interspersed : List Table → List Table → Prop where
  | nothing : Interspersed [] []
  | given (table : Table) (tables others : List Table) (further : Interspersed tables others) :
      Interspersed (table :: tables) (table :: others)
  | empty (tables others : List Table) (further : Interspersed tables others) : Interspersed tables (⟨[]⟩ :: others)

theorem Interspersed.rows_eq (tables others : List Table) (interspersed : Interspersed tables others) :
    others.flatMap (·.rows) = tables.flatMap (·.rows) := by
  induction interspersed with
  | nothing => rfl
  | given table tables others _ ih => rw [List.flatMap_cons, List.flatMap_cons, ih]
  | empty tables others _ ih => rw [List.flatMap_cons, List.nil_append, ih]

end Table

-- Any finished table, any merged table, and any tables with empty ones between them.
theorem merging_leaves_finished :
    (∀ extent shares, let table := ((Draft.blank extent).applyAll shares).finish
      Table.merge [table] = .ok table) ∧
    (∀ className features extent, let table := Table.compose className features extent
      Table.merge [table] = .ok table) ∧
    (∀ tables table, Table.merge tables = .ok table → Table.merge [table] = .ok table) ∧
    ∀ tables others, Table.Interspersed tables others → Table.merge others = Table.merge tables := by
  refine ⟨Table.merge_finish, fun className features extent => Table.merge_finish extent _, ?_, ?_⟩
  · intro tables table merged
    exact Table.merge_of_finished table (Table.finished_of_merge tables table merged)
  · intro tables others interspersed
    rw [Table.merge, Table.merge, interspersed.rows_eq]

-- A column that holds a list, nothing and groups of different keys. The second level gets nulls in its place.
theorem mixed_column_merges_to_itself :
    let pool (entries : List (String × Option Scalar)) : Cell := .group (NameMap.ofList entries)
    let first : Table := ⟨[⟨3, ["Surge"], NameMap.ofList [("Pool", some (pool [("x", some (.integer 1))]))]⟩,
      ⟨1, [], NameMap.ofList [("Pool", some (.list ["a"]))]⟩]⟩
    let second : Table := ⟨[⟨2, [], NameMap.ofList [("Die", some (.scalar (.text "d8"))), ("Pool", none)]⟩,
      ⟨3, [], NameMap.ofList [("Pool", some (pool [("y", none)]))]⟩]⟩
    ∃ table, Table.merge [first, second] = .ok table ∧
      (table.rows.map fun row => row.cell? "Pool") = [some (.list ["a"]), some (pool [("x", none), ("y", none)]),
        some (pool [("x", some (.integer 1)), ("y", none)])] ∧
      Table.merge [table] = .ok table ∧ Table.merge [⟨[]⟩, first, ⟨[]⟩, ⟨[]⟩, second] = .ok table := by
  intro pool first second
  obtain ⟨table, merged⟩ : ∃ table, Table.merge [first, second] = .ok table := ⟨_, rfl⟩
  have cells : (Table.merge [first, second]).toOption.map (fun table => table.rows.map fun row => row.cell? "Pool") =
      some [some (.list ["a"]), some (pool [("x", none), ("y", none)]),
        some (pool [("x", some (.integer 1)), ("y", none)])] := by decide +kernel
  rw [merged] at cells
  obtain ⟨_, _, idempotent, empties⟩ := merging_leaves_finished
  refine ⟨table, merged, Option.some.inj cells, idempotent _ table merged, merged ▸ empties [first, second] _ ?_⟩
  exact .empty _ _ (.given _ _ _ (.empty _ _ (.empty _ _ (.given _ _ _ .nothing))))

end ClassProgression
