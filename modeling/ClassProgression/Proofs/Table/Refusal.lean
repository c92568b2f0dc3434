import ClassProgression.Proofs.Table.Conflict
import ClassProgression.Proofs.Table.MergeResult

namespace ClassProgression

def cellsAt (given : List Row) (level : Level) (column : String) : List Cell :=
  (given.filter fun row => row.level = level).filterMap (·.cell? column)

-- The rows before the refused one go together. What comes behind it has no say.
inductive Refused (given : List Row) : Fault → Prop where
  | row (before after : List Row) (incoming : Row) (column : String) (cell : Cell) (fault : Fault)
      (parts : given = before ++ incoming :: after)
      (mergeable : ∀ level column, ¬ Conflict (cellsAt before level column))
      (held : incoming.cell? column = some cell)
      (conflict : Conflict (cellsAt (before ++ [incoming]) incoming.level column))
      (least : ∀ other, other < column → ¬ Conflict (cellsAt (before ++ [incoming]) incoming.level other))
      (reported : Reported incoming.level column (cellsAt before incoming.level column) cell fault) :
      Refused given fault

@[simp]
theorem cellsAt_append (given more : List Row) (level : Level) (column : String) :
    cellsAt (given ++ more) level column = cellsAt given level column ++ cellsAt more level column := by
  rw [cellsAt, List.filter_append, List.filterMap_append, cellsAt, cellsAt]

@[simp]
theorem cellsAt_row (row : Row) (column : String) : cellsAt [row] row.level column = (row.cell? column).toList := by
  cases held : row.cell? column <;> simp [cellsAt, held]

theorem cellsAt_fresh (given : List Row) (level : Level) (column : String)
    (fresh : level ∉ given.map (·.level)) : cellsAt given level column = [] := by
  have empty : given.filter (fun row => row.level = level) = [] := by
    refine List.filter_eq_nil_iff.mpr fun row member same => fresh ?_
    exact List.mem_map.mpr ⟨row, member, of_decide_eq_true same⟩
  rw [cellsAt, empty, List.filterMap_nil]

-- A row is refused for its least column that cannot be added.
theorem Row.combine_fault (row incoming : Row) (fault : Fault) (refused : row.combine incoming = .error fault) :
    ∃ column cell, incoming.cell? column = some cell ∧
      combineCells row.level column (row.cell? column) (some cell) = .error fault ∧
      ∀ other, other < column →
        ∃ next, combineCells row.level other (row.cell? other) (incoming.cell? other) = .ok next := by
  unfold combine at refused
  cases absorbed : row.columns.absorb (combineCells row.level) incoming.columns with
  | ok columns => rw [absorbed] at refused; cases refused
  | error own =>
      rw [absorbed] at refused
      cases refused
      obtain ⟨column, failed, below⟩ := (NameMap.absorb_eq_error _ _ _ _).mp absorbed
      obtain ⟨left, right, inRow, inIncoming, apart⟩ := (NameMap.absorbAt_eq_error _ column _ _ _).mp failed
      cases right with
      | none => rw [combineCells_none] at apart; cases apart
      | some cell =>
          refine ⟨column, cell, by rw [cell?, inIncoming, Option.join_some], ?_, fun other less => ?_⟩
          · rwa [cell?, inRow, Option.join_some]
          · obtain ⟨result, accepted⟩ := below other less
            exact ⟨result.join, NameMap.absorbAt_join _ other (combineCells_none row.level other) (fun _ => rfl)
              _ _ _ accepted⟩

namespace Table

theorem mergeRow_fault (incoming : Row) (merged : List Row) (fault : Fault)
    (failed : mergeRow incoming merged = .error fault) :
    ∃ row ∈ merged, row.level = incoming.level ∧ row.combine incoming = .error fault := by
  induction merged with
  | nil => cases failed
  | cons row rest ih =>
      unfold mergeRow at failed
      split at failed
      · cases failed
      · split at failed
        · rename_i same
          cases combined : row.combine incoming with
          | ok joined => rw [combined] at failed; cases failed
          | error own =>
              rw [combined] at failed
              cases failed
              exact ⟨row, List.mem_cons_self, same.symm, combined⟩
        · cases inserted : mergeRow incoming rest with
          | ok later => rw [inserted] at failed; cases failed
          | error own =>
              rw [inserted] at failed
              cases failed
              obtain ⟨held, member, same, combined⟩ := ih inserted
              exact ⟨held, List.mem_cons_of_mem row member, same, combined⟩

theorem mergeRows_fault (given : List Row) (fault : Fault) (failed : mergeRows given = .error fault) :
    ∃ before incoming after merged, given = before ++ incoming :: after ∧ mergeRows before = .ok merged ∧
      mergeRow incoming merged = .error fault := by
  induction given using List.reverseRecOn with
  | nil => cases failed
  | append_singleton earlier incoming ih =>
      rw [mergeRows_concat] at failed
      cases start : mergeRows earlier with
      | ok merged =>
          rw [start] at failed
          exact ⟨earlier, incoming, [], merged, rfl, start, failed⟩
      | error own =>
          rw [start] at failed
          cases failed
          obtain ⟨before, first, after, merged, rfl, accepted, refused⟩ := ih start
          exact ⟨before, first, after ++ [incoming], merged, by simp, accepted, refused⟩

theorem Merged.not_conflict (given merged : List Row) (valid : Merged given merged) (level : Level)
    (column : String) : ¬ Conflict (cellsAt given level column) := by
  by_cases present : level ∈ given.map (·.level)
  · obtain ⟨row, member, rfl⟩ := List.mem_map.mp ((valid.levels level).mpr present)
    exact ((valid.gathers row member).cells column).not_conflict _ _
  · rw [cellsAt_fresh given level column present]
    exact Pooled.nothing.not_conflict _ _

theorem mergeRows_refused (given : List Row) (fault : Fault) (failed : mergeRows given = .error fault) :
    Refused given fault := by
  obtain ⟨before, incoming, after, merged, parts, accepted, refused⟩ := mergeRows_fault given fault failed
  have valid := mergeRows_valid before merged accepted
  obtain ⟨row, member, same, combined⟩ := mergeRow_fault incoming merged fault refused
  obtain ⟨column, cell, held, apart, below⟩ := row.combine_fault incoming fault combined
  have pooled : ∀ column, Pooled (cellsAt before incoming.level column) (row.cell? column) := by
    intro column
    rw [← same]
    exact (valid.gathers row member).cells column
  rw [same] at apart below
  obtain ⟨conflict, reported⟩ := (pooled column).reported incoming.level column _ _ cell fault apart
  refine .row before after incoming column cell fault parts (Merged.not_conflict before merged valid) held ?_ ?_
    reported
  · simpa [held] using conflict
  · intro other less
    obtain ⟨next, went⟩ := below other less
    rw [cellsAt_append, cellsAt_row]
    cases present : incoming.cell? other with
    | none => simpa using (pooled other).not_conflict _ _
    | some otherCell =>
        rw [present] at went
        exact ((pooled other).add incoming.level other _ _ otherCell next went).not_conflict _ _

end Table

namespace Refused

theorem conflict (given : List Row) (fault : Fault) (refused : Refused given fault) :
    ∃ level column, Conflict (cellsAt given level column) := by
  obtain ⟨before, after, incoming, column, cell, _, rfl, _, _, conflict, _, _⟩ := refused
  refine ⟨incoming.level, column, ?_⟩
  rw [← List.singleton_append, ← List.append_assoc, cellsAt_append]
  exact conflict.append _ _

theorem before_unique (before other after more : List Row) (incoming next : Row) (column : String)
    (parts : before ++ incoming :: after = other ++ next :: more)
    (mergeable : ∀ level column, ¬ Conflict (cellsAt other level column))
    (conflict : Conflict (cellsAt (before ++ [incoming]) incoming.level column)) :
    other.length ≤ before.length := by
  apply Nat.le_of_not_lt
  intro shorter
  have short : before ++ [incoming] <+: before ++ incoming :: after := ⟨after, by simp⟩
  have long : other <+: before ++ incoming :: after := parts ▸ List.prefix_append other (next :: more)
  obtain ⟨rest, within⟩ := List.prefix_of_prefix_length_le short long (by simpa [Nat.add_one_le_iff] using shorter)
  subst within
  refine mergeable incoming.level column ?_
  rw [cellsAt_append]
  exact conflict.append _ _

theorem unique (given : List Row) (left right : Fault) (first : Refused given left) (second : Refused given right) :
    left = right := by
  obtain ⟨before, after, incoming, column, cell, _, parts, mergeable, held, conflict, least, reported⟩ := first
  obtain ⟨otherBefore, otherAfter, otherIncoming, otherColumn, otherCell, _, otherParts, otherMergeable,
    otherHeld, otherConflict, otherLeast, otherReported⟩ := second
  have whole := parts.symm.trans otherParts
  have length : before.length = otherBefore.length := Nat.le_antisymm
    (before_unique otherBefore before otherAfter after otherIncoming incoming otherColumn whole.symm mergeable
      otherConflict)
    (before_unique before otherBefore after otherAfter incoming otherIncoming column whole otherMergeable conflict)
  obtain ⟨rfl, rest⟩ := List.append_inj whole length
  obtain ⟨rfl, rfl⟩ := List.cons.inj rest
  have same : otherColumn = column :=
    NameMap.least_unique _ otherColumn column otherConflict conflict otherLeast least
  subst same
  cases held.symm.trans otherHeld
  exact reported.unique _ _ _ _ _ _ otherReported

end Refused

theorem Table.merge_eq_error (tables : List Table) (fault : Fault) :
    merge tables = .error fault ↔ mergeRows (tables.flatMap (·.rows)) = .error fault := by
  unfold merge
  cases mergeRows (tables.flatMap (·.rows)) <;> simp [Except.map]

-- Any merge, whether it fails and with what.
theorem merge_refuses_exactly (tables : List Table) :
    let given := tables.flatMap (·.rows)
    ((∃ fault, Table.merge tables = .error fault) ↔ ∃ level column, Conflict (cellsAt given level column)) ∧
    (∀ fault, Table.merge tables = .error fault ↔ Refused given fault) ∧
    ∀ left right sum, (Scalar.integer left).add? (.integer right) = some sum ↔
      ∃ total : Int64, sum = .integer total ∧ total.toInt = left.toInt + right.toInt := by
  intro given
  have refused : ∀ fault, Table.merge tables = .error fault → Refused given fault := fun fault failed =>
    Table.mergeRows_refused given fault ((Table.merge_eq_error tables fault).mp failed)
  have fails : ∀ level column, Conflict (cellsAt given level column) →
      ∃ fault, Table.merge tables = .error fault := by
    intro level column conflict
    cases outcome : Table.mergeRows given with
    | ok merged =>
        have valid := Table.mergeRows_valid given merged outcome
        exact absurd conflict (Table.Merged.not_conflict given merged valid level column)
    | error fault => exact ⟨fault, (Table.merge_eq_error tables fault).mpr outcome⟩
  refine ⟨⟨?_, ?_⟩, fun fault => ⟨refused fault, ?_⟩, Scalar.integer_add?_eq_some⟩
  · rintro ⟨fault, failed⟩
    exact (refused fault failed).conflict
  · rintro ⟨level, column, conflict⟩
    exact fails level column conflict
  · intro described
    obtain ⟨level, column, conflict⟩ := described.conflict
    obtain ⟨other, failed⟩ := fails level column conflict
    rw [described.unique _ _ _ (refused other failed)]
    exact failed

-- The sum of the first two rows is what the third does not go with; the text in the fourth comes too late.
theorem third_row_refused :
    let pool (level : Level) (value : Scalar) : Row :=
      ⟨level, [], NameMap.ofList [("Pool", some (.group (NameMap.ofList [("x", some value)])))]⟩
    let tables : List Table := [⟨[pool 1 (.integer 9223372036854775800), pool 2 (.text "d8")]⟩,
      ⟨[pool 1 (.integer 7), pool 1 (.integer 1), pool 2 (.text "d10")]⟩]
    Table.merge tables = .error (.overflow "Pool.x" 1 "9223372036854775807" "1") ∧
      Refused (tables.flatMap (·.rows)) (.overflow "Pool.x" 1 "9223372036854775807" "1") := by
  intro pool tables
  have failed : Table.merge tables = .error (.overflow "Pool.x" 1 "9223372036854775807" "1") := by decide +kernel
  exact ⟨failed, ((merge_refuses_exactly tables).2.1 _).mp failed⟩

end ClassProgression
