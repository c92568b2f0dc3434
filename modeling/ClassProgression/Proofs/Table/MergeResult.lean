import ClassProgression.Proofs.Table.Alignment
import ClassProgression.Proofs.Table.Pooling
import Mathlib.Data.List.Induction

namespace ClassProgression

-- What a merged and aligned row holds, told from the cells given for its level.
inductive Combined (grouped : Prop) : List Cell → Option Cell → Prop where
  | nothing (ungrouped : ¬ grouped) : Combined grouped [] none
  | nulls (members : Group) (held : grouped) (null : ∀ key value, members.get? key = some value → value = none) :
      Combined grouped [] (some (.group members))
  | lists (first : List String) (rest : List (List String)) :
      Combined grouped ((first :: rest).map .list) (some (.list (first :: rest).flatten))
  | scalars (first : Scalar) (rest : List Scalar) (agree : ∀ other ∈ rest, (first == other) = true) :
      Combined grouped ((first :: rest).map .scalar) (some (.scalar first))
  | groups (first : Group) (rest : List Group) (members : Group)
      (totals : ∀ key value, members.get? key = some value →
        Total ((first :: rest).filterMap fun group => (group.get? key).join) value) :
      Combined grouped ((first :: rest).map .group) (some (.group members))

namespace Pooled

theorem mem_keys (cells : List Cell) (members : Group) (pooled : Pooled cells (some (.group members)))
    (key : String) : key ∈ members.keys ↔ ∃ group, Cell.group group ∈ cells ∧ key ∈ group.keys := by
  cases pooled with
  | groups first rest _ known _ => simp [known]

theorem of_group (cells : List Cell) (held : Option Cell) (pooled : Pooled cells held) (group : Group)
    (member : Cell.group group ∈ cells) : ∃ members, held = some (.group members) := by
  cases pooled with
  | nothing => cases member
  | lists first rest => simp at member
  | scalars first rest agree => simp at member
  | groups first rest members known totals => exact ⟨members, rfl⟩

theorem combined (rows : List Row) (column : String) (row : Row) (member : row ∈ rows) (cells : List Cell)
    (pooled : Pooled cells (row.cell? column)) :
    Combined (Alignment.Grouped rows column) cells
      (Alignment.alignCell (Alignment.groupKeys? rows column) (row.cell? column)) := by
  generalize cell : row.cell? column = held at pooled ⊢
  cases pooled with
  | nothing =>
      by_cases grouped : Alignment.Grouped rows column
      · rw [Alignment.alignCell_null rows column grouped]
        refine .nulls _ grouped fun key value found => ?_
        rw [NameMap.get?_tabulate] at found
        split at found <;> cases found
        rfl
      · rw [Alignment.alignCell_ungrouped rows column _ grouped]
        exact .nothing grouped
  | lists first rest => simpa using .lists first rest
  | scalars first rest agree => simpa using .scalars first rest agree
  | groups first rest members known totals =>
      rw [Alignment.alignCell_group rows column row member members cell]
      refine .groups first rest _ fun key value found => ?_
      rw [NameMap.get?_tabulate] at found
      split at found <;> cases found
      exact totals key

end Pooled

structure Gathers (given : List Row) (row : Row) : Prop where
  features : row.features = given.flatMap (·.features)
  columns : ∀ column, column ∈ row.columns.keys ↔ ∃ other ∈ given, column ∈ other.columns.keys
  cells : ∀ column, Pooled (given.filterMap (·.cell? column)) (row.cell? column)

namespace Gathers

theorem single (row : Row) : Gathers [row] row where
  features := by simp
  columns := by simp
  cells column := by
    cases found : row.cell? column with
    | none => simpa [found] using Pooled.nothing
    | some cell => simpa [found] using Pooled.single cell

end Gathers

theorem Row.combine_eq_ok (row incoming next : Row) : row.combine incoming = .ok next ↔
    next.level = row.level ∧ next.features = row.features ++ incoming.features ∧
      row.columns.absorb (combineCells row.level) incoming.columns = .ok next.columns := by
  unfold combine
  constructor
  · intro accepted
    cases absorbed : row.columns.absorb (combineCells row.level) incoming.columns with
    | error fault => rw [absorbed] at accepted; cases accepted
    | ok columns =>
        rw [absorbed] at accepted
        rw [← Except.ok.inj accepted]
        exact ⟨rfl, rfl, rfl⟩
  · rintro ⟨level, features, absorbed⟩
    rw [absorbed, ← features]
    exact congrArg (fun level => Except.ok {next with level := level}) level.symm

namespace Gathers

theorem combine (given : List Row) (row incoming next : Row) (gathers : Gathers given row)
    (accepted : row.combine incoming = .ok next) : Gathers (given ++ [incoming]) next := by
  obtain ⟨_, features, absorbed⟩ := (row.combine_eq_ok incoming next).mp accepted
  refine ⟨?_, fun column => ?_, fun column => ?_⟩
  · rw [features, gathers.features]
    simp
  · rw [NameMap.mem_keys_absorb _ _ _ _ absorbed, gathers.columns]
    simp [or_and_right, exists_or]
  · have own : Row.combineCells row.level column (row.cell? column) (incoming.cell? column) =
        .ok (next.cell? column) :=
      NameMap.absorbAt_join _ column (Row.combineCells_none row.level column) (fun _ => rfl) _ _ _
        ((NameMap.absorb_eq_ok _ _ _ _).mp absorbed column)
    cases found : incoming.cell? column with
    | none =>
        rw [found, Row.combineCells_none] at own
        rw [← Except.ok.inj own]
        simpa [found] using gathers.cells column
    | some cell =>
        rw [found] at own
        simpa [found] using (gathers.cells column).add row.level column _ _ cell _ own

variable (given : List Row) (row : Row) (gathers : Gathers given row) (column : String)
include gathers

theorem mem_keys (members : Group) (held : row.group? column = some members) (key : String) :
    key ∈ members.keys ↔ ∃ other ∈ given, ∃ group, other.group? column = some group ∧ key ∈ group.keys := by
  have pooled := gathers.cells column
  rw [(row.group?_eq_some column members).mp held] at pooled
  rw [pooled.mem_keys]
  simp only [List.mem_filterMap, Row.group?_eq_some]
  grind

theorem group?_of_mem (other : Row) (member : other ∈ given) (group : Group)
    (held : other.group? column = some group) : ∃ members, row.group? column = some members := by
  have listed : Cell.group group ∈ given.filterMap (·.cell? column) :=
    List.mem_filterMap.mpr ⟨other, member, (other.group?_eq_some column group).mp held⟩
  obtain ⟨members, merged⟩ := (gathers.cells column).of_group _ _ group listed
  exact ⟨members, (row.group?_eq_some column members).mpr merged⟩

end Gathers

namespace Table

-- A row takes its place by level, either as it is or together with the one row of its level.
theorem mergeRow_cases (incoming : Row) (merged next : List Row)
    (ascending : merged.Pairwise fun lower higher => lower.level < higher.level)
    (accepted : mergeRow incoming merged = .ok next) :
    ∃ before joined after, next = before ++ joined :: after ∧
      (∀ row ∈ before, row.level < incoming.level) ∧ (∀ row ∈ after, incoming.level < row.level) ∧
      ((merged = before ++ after ∧ joined = incoming) ∨
        ∃ row, merged = before ++ row :: after ∧ row.level = incoming.level ∧ row.combine incoming = .ok joined) := by
  induction merged generalizing next with
  | nil =>
      rw [← Except.ok.inj accepted]
      exact ⟨[], incoming, [], rfl, by simp, by simp, .inl ⟨rfl, rfl⟩⟩
  | cons row rest ih =>
      have ⟨first, tail⟩ := List.pairwise_cons.mp ascending
      unfold mergeRow at accepted
      split at accepted
      · rename_i less
        rw [← Except.ok.inj accepted]
        refine ⟨[], incoming, row :: rest, rfl, by simp, fun other member => ?_, .inl ⟨rfl, rfl⟩⟩
        rcases List.mem_cons.mp member with rfl | later
        · exact less
        · exact UInt32.lt_trans less (first other later)
      · rename_i notLess
        split at accepted
        · rename_i same
          cases combined : row.combine incoming with
          | error fault => rw [combined] at accepted; cases accepted
          | ok joined =>
              rw [combined] at accepted
              rw [← Except.ok.inj accepted]
              exact ⟨[], joined, rest, rfl, by simp, fun other member => same ▸ first other member,
                .inr ⟨row, rfl, same.symm, combined⟩⟩
        · rename_i different
          cases inserted : mergeRow incoming rest with
          | error fault => rw [inserted] at accepted; cases accepted
          | ok later =>
              rw [inserted] at accepted
              rw [← Except.ok.inj accepted]
              obtain ⟨before, joined, after, rfl, lower, higher, how⟩ := ih later tail inserted
              have below : row.level < incoming.level :=
                UInt32.lt_of_le_of_ne (UInt32.not_lt.mp notLess) (Ne.symm different)
              refine ⟨row :: before, joined, after, rfl, ?_, higher, ?_⟩
              · intro other member
                rcases List.mem_cons.mp member with rfl | earlier
                · exact below
                · exact lower other earlier
              · rcases how with ⟨rfl, rfl⟩ | ⟨held, rfl, level, combined⟩
                · exact .inl ⟨rfl, rfl⟩
                · exact .inr ⟨held, rfl, level, combined⟩

-- The rows merged so far: one for each given level, made of the given rows of that level.
structure Merged (given merged : List Row) : Prop where
  ascending : merged.Pairwise fun lower higher => lower.level < higher.level
  levels : ∀ level, level ∈ merged.map (·.level) ↔ level ∈ given.map (·.level)
  gathers : ∀ row ∈ merged, Gathers (given.filter fun other => other.level = row.level) row

theorem ascending_insert (before after : List Row) (joined : Row)
    (ascending : (before ++ after).Pairwise fun lower higher => lower.level < higher.level)
    (lower : ∀ row ∈ before, row.level < joined.level) (higher : ∀ row ∈ after, joined.level < row.level) :
    (before ++ joined :: after).Pairwise fun lower higher => lower.level < higher.level := by
  obtain ⟨first, second, across⟩ := List.pairwise_append.mp ascending
  refine List.pairwise_append.mpr ⟨first, .cons higher second, fun left inLeft right inRight => ?_⟩
  rcases List.mem_cons.mp inRight with rfl | later
  · exact lower left inLeft
  · exact across left inLeft right later

theorem mergeRow_preserves (given merged next : List Row) (incoming : Row) (valid : Merged given merged)
    (accepted : mergeRow incoming merged = .ok next) : Merged (given ++ [incoming]) next := by
  obtain ⟨before, joined, after, rfl, lower, higher, how⟩ :=
    mergeRow_cases incoming merged next valid.ascending accepted
  have level : joined.level = incoming.level := by
    rcases how with ⟨_, rfl⟩ | ⟨row, _, same, combined⟩
    · rfl
    · exact ((row.combine_eq_ok incoming joined).mp combined).1.trans same
  have kept : (before ++ after).Sublist merged := by
    rcases how with ⟨rfl, _⟩ | ⟨row, rfl, _⟩
    · exact List.Sublist.refl _
    · exact (List.Sublist.refl before).append (List.sublist_cons_self row after)
  refine ⟨?_, ?_, ?_⟩
  · exact ascending_insert before after joined (valid.ascending.sublist kept)
      (by rwa [level]) (by rwa [level])
  · intro wanted
    rw [List.map_append, List.mem_append, List.map_append, List.mem_append, ← valid.levels wanted]
    rcases how with ⟨rfl, _⟩ | ⟨row, rfl, same, _⟩
    · simp only [List.map_append, List.map_cons, List.mem_append, List.mem_cons, level]
      grind
    · simp only [List.map_append, List.map_cons, List.mem_append, List.mem_cons, level, same]
      grind
  · intro row member
    rw [List.filter_append]
    rcases List.mem_append.mp member with earlier | later
    · have other : incoming.level ≠ row.level := fun same => UInt32.lt_irrefl _ (same ▸ lower row earlier)
      simpa [other] using valid.gathers row (kept.subset (List.mem_append_left after earlier))
    · rcases List.mem_cons.mp later with rfl | beyond
      · rcases how with ⟨rfl, rfl⟩ | ⟨held, rfl, same, combined⟩
        · have fresh : given.filter (fun other => other.level = row.level) = [] := by
            refine List.filter_eq_nil_iff.mpr fun other present same => ?_
            have listed := (valid.levels row.level).mpr
              (List.mem_map.mpr ⟨other, present, of_decide_eq_true same⟩)
            obtain ⟨double, inMerged, equal⟩ := List.mem_map.mp listed
            rcases List.mem_append.mp inMerged with early | late
            · exact UInt32.lt_irrefl _ (equal ▸ lower double early)
            · exact UInt32.lt_irrefl _ (equal ▸ higher double late)
          rw [fresh]
          simpa using Gathers.single row
        · have gathers := (valid.gathers held (by simp)).combine _ held incoming row combined
          simpa [level, same] using gathers
      · have other : incoming.level ≠ row.level := fun same => UInt32.lt_irrefl _ (same ▸ higher row beyond)
        simpa [other] using valid.gathers row (kept.subset (List.mem_append_right before beyond))

theorem mergeRows_concat (earlier : List Row) (incoming : Row) :
    mergeRows (earlier ++ [incoming]) = (mergeRows earlier).bind (mergeRow incoming) := by
  unfold mergeRows
  rw [List.foldlM_append]
  refine congrArg (Except.bind _) (funext fun merged => ?_)
  exact bind_pure (mergeRow incoming merged)

theorem mergeRows_valid (given merged : List Row) (accepted : mergeRows given = .ok merged) :
    Merged given merged := by
  induction given using List.reverseRecOn generalizing merged with
  | nil =>
      rw [← Except.ok.inj accepted]
      exact ⟨.nil, by simp, by simp⟩
  | append_singleton earlier incoming ih =>
      rw [mergeRows_concat] at accepted
      cases before : mergeRows earlier with
      | error fault => rw [before] at accepted; cases accepted
      | ok middle =>
          rw [before] at accepted
          exact mergeRow_preserves earlier middle merged incoming (ih middle before) accepted

end Table

namespace Table.Merged

variable (given rows : List Row) (valid : Merged given rows) (column : String)
include valid

theorem row_of_mem (other : Row) (member : other ∈ given) :
    ∃ row ∈ rows, other ∈ given.filter (fun other => other.level = row.level) ∧
      Gathers (given.filter fun other => other.level = row.level) row := by
  obtain ⟨row, inRows, same⟩ := List.mem_map.mp ((valid.levels other.level).mpr (List.mem_map_of_mem member))
  exact ⟨row, inRows, List.mem_filter.mpr ⟨member, decide_eq_true same.symm⟩, valid.gathers row inRows⟩

theorem mem_columns : (∃ row ∈ rows, column ∈ row.columns.keys) ↔ ∃ other ∈ given, column ∈ other.columns.keys := by
  constructor
  · rintro ⟨row, member, listed⟩
    obtain ⟨other, here, holds⟩ := ((valid.gathers row member).columns column).mp listed
    exact ⟨other, (List.mem_filter.mp here).1, holds⟩
  · rintro ⟨other, member, holds⟩
    obtain ⟨row, inRows, here, gathers⟩ := row_of_mem given rows valid other member
    exact ⟨row, inRows, (gathers.columns column).mpr ⟨other, here, holds⟩⟩

theorem mem_keysOf (key : String) : key ∈ Alignment.keysOf rows column ↔
    ∃ other ∈ given, ∃ group, other.group? column = some group ∧ key ∈ group.keys := by
  rw [Alignment.mem_keysOf]
  constructor
  · rintro ⟨row, member, members, held, known⟩
    obtain ⟨other, here, group, holds, own⟩ :=
      ((valid.gathers row member).mem_keys _ row column members held key).mp known
    exact ⟨other, (List.mem_filter.mp here).1, group, holds, own⟩
  · rintro ⟨other, member, group, holds, own⟩
    obtain ⟨row, inRows, here, gathers⟩ := row_of_mem given rows valid other member
    obtain ⟨members, held⟩ := gathers.group?_of_mem _ row column other here group holds
    exact ⟨row, inRows, members, held,
      (gathers.mem_keys _ row column members held key).mpr ⟨other, here, group, holds, own⟩⟩

end Table.Merged

-- The result of any merge that succeeds.
theorem merged_by_level (tables : List Table) (table : Table) (merged : Table.merge tables = .ok table) :
    let given := tables.flatMap (·.rows)
    table.rows.Pairwise (fun lower higher => lower.level < higher.level) ∧
    (∀ level, level ∈ table.rows.map (·.level) ↔ level ∈ given.map (·.level)) ∧
    ∀ row ∈ table.rows,
      let here := given.filter fun other => other.level = row.level
      row.features = here.flatMap (·.features) ∧
      ∀ column,
        (column ∈ row.columns.keys ↔ ∃ other ∈ given, column ∈ other.columns.keys) ∧
        Combined (Alignment.Grouped table.rows column) (here.filterMap (·.cell? column)) (row.cell? column) ∧
        ∀ members, row.group? column = some members → ∀ key, key ∈ members.keys ↔
          ∃ other ∈ given, ∃ group, other.group? column = some group ∧ key ∈ group.keys := by
  intro given
  obtain ⟨rows, accepted, rfl⟩ : ∃ rows, Table.mergeRows given = .ok rows ∧ table = ⟨Alignment.align rows⟩ := by
    unfold Table.merge at merged
    cases accepted : Table.mergeRows given with
    | error fault => rw [accepted] at merged; cases merged
    | ok rows => rw [accepted] at merged; exact ⟨rows, rfl, (Except.ok.inj merged).symm⟩
  have valid := Table.mergeRows_valid given rows accepted
  refine ⟨?_, ?_, ?_⟩
  · exact List.pairwise_map.mpr valid.ascending
  · intro level
    rw [Alignment.levels_align]
    exact valid.levels level
  · intro row member
    obtain ⟨draft, inRows, rfl⟩ := List.mem_map.mp member
    have gathers := valid.gathers draft inRows
    refine ⟨gathers.features, fun column => ⟨?_, ?_, ?_⟩⟩
    · rw [Alignment.mem_columns_align rows column _ member]
      exact valid.mem_columns given rows column
    · rw [Alignment.cell?_alignRow rows column draft inRows, Alignment.grouped_align]
      exact Pooled.combined rows column draft inRows _ (gathers.cells column)
    · intro members held key
      rw [Alignment.mem_keys_align rows column _ member members held]
      exact valid.mem_keysOf given rows column key

-- A key that only one of two classes has at their common level.
theorem two_classes_by_level :
    let slots (entries : List (String × Option Scalar)) : Option Cell := some (.group (NameMap.ofList entries))
    let fighter : Table := ⟨[⟨2, ["Surge"], NameMap.ofList [("Slots", slots [("1st", some (.integer 2))])]⟩]⟩
    let wizard : Table := ⟨[⟨1, [], NameMap.ofList [("Die", some (.scalar (.text "d8")))]⟩,
      ⟨2, ["School"], NameMap.ofList [("Slots", slots [("1st", some (.integer 3)), ("2nd", none)])]⟩]⟩
    ∃ table, Table.merge [fighter, wizard] = .ok table ∧ ∀ row ∈ table.rows, row.level = 2 →
      row.features = ["Surge", "School"] ∧ "Die" ∈ row.columns.keys ∧
      ∀ members, row.group? "Slots" = some members → "2nd" ∈ members.keys := by
  intro slots fighter wizard
  obtain ⟨table, merged⟩ : ∃ table, Table.merge [fighter, wizard] = .ok table := ⟨_, rfl⟩
  refine ⟨table, merged, fun row member level => ?_⟩
  obtain ⟨_, _, law⟩ := merged_by_level [fighter, wizard] table merged
  obtain ⟨features, columns⟩ := law row member
  refine ⟨?_, (columns "Die").1.mpr ?_, fun members held => ((columns "Slots").2.2 members held "2nd").mpr ?_⟩
  · rw [features, level]
    decide +kernel
  · exact ⟨_, List.mem_cons_of_mem _ List.mem_cons_self, by decide +kernel⟩
  · exact ⟨_, List.mem_cons_of_mem _ (List.mem_cons_of_mem _ List.mem_cons_self), _, rfl, by decide +kernel⟩

end ClassProgression
