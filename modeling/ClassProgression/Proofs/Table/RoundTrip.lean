import ClassProgression.Proofs.Cell.RoundTrip
import ClassProgression.Proofs.Table.Stepwise
import ClassProgression.Table.Json

namespace ClassProgression

namespace Row

def floats (row : Row) : List Float := row.columns.values.flatMap fun slot => (slot.map Cell.floats).getD []

def Ordinary (row : Row) : Prop := ∀ column ∈ row.columns.keys, column ∉ [levelColumn, featuresColumn]

def columnFields (row : Row) : List (String × Json) :=
  row.columns.entries.map fun entry => (entry.1, slotToJson entry.2)

def fields (row : Row) : List (String × Json) :=
  (levelColumn, Json.nat row.level.toNat) :: (featuresColumn, Json.texts row.features) :: row.columnFields

theorem nullOr?_slotToJson (slot : Option Cell) : Json.nullOr? Cell.ofJson? (slotToJson slot) = some slot := by
  cases slot with
  | none => rfl
  | some cell => exact cell.nullOr?_toJson

theorem Ordinary.columnFields (row : Row) (ordinary : row.Ordinary) :
    ∀ field ∈ row.columnFields, field.1 ∉ [levelColumn, featuresColumn] := by
  intro field member
  obtain ⟨entry, listed, rfl⟩ := List.mem_map.mp member
  exact ordinary entry.1 (List.mem_map_of_mem listed)

theorem ofJson?_toJson (row : Row) (ordinary : row.Ordinary) : ofJson? row.toJson = some row := by
  have unnamed := ordinary.columnFields
  have apart : featuresColumn ≠ levelColumn := by decide
  have noLevel : ∀ field ∈ row.columnFields, field.1 ≠ levelColumn := fun field member same =>
    unnamed field member (by simp [same])
  have noFeatures : ∀ field ∈ row.columnFields, field.1 ≠ featuresColumn := fun field member same =>
    unnamed field member (by simp [same])
  have level : Json.field? levelColumn row.fields = some (some (Json.nat row.level.toNat)) :=
    Json.field?_head _ _ _ (List.forall_mem_cons.mpr ⟨apart, noLevel⟩)
  have features : Json.field? featuresColumn row.fields = some (some (Json.texts row.features)) :=
    (Json.field?_tail _ _ _ _ apart.symm).trans (Json.field?_head _ _ _ noFeatures)
  have others : Json.others [levelColumn, featuresColumn] row.fields = row.columnFields :=
    ((Json.others_head _ _ _ _ (by simp)).trans (Json.others_head _ _ _ _ (by simp))).trans
      (Json.others_of_none _ _ unnamed)
  have columns : Json.fieldsOf? (Json.nullOr? Cell.ofJson?) row.columnFields = some row.columns :=
    Json.fieldsOf?_entries _ slotToJson row.columns fun entry _ => nullOr?_slotToJson entry.2
  change ofJson? (.object row.fields) = some row
  simp [ofJson?, level, features, others, columns, Json.orDefault]

theorem readable_toJson (row : Row) (legible : ∀ number ∈ row.floats, Json.Legible number) (depth : Nat) :
    Json.Readable (depth + 2) row.toJson := by
  refine .object (depth + 1) _ fun field member => ?_
  rcases List.mem_cons.mp member with rfl | member
  · exact .plain _ _ (.integer _)
  rcases List.mem_cons.mp member with rfl | member
  · exact Json.readable_texts depth row.features
  obtain ⟨⟨name, slot⟩, listed, rfl⟩ := List.mem_map.mp member
  cases slot with
  | none => exact .plain _ _ .null
  | some cell =>
      refine cell.readable_toJson (fun number float => legible number ?_) depth
      exact List.mem_flatMap.mpr ⟨some cell, List.mem_map.mpr ⟨_, listed, rfl⟩, float⟩

theorem ordinary_of_ofJson? (value : Json) (row : Row) (read : ofJson? value = some row) : row.Ordinary := by
  cases value with
  | object fields =>
      simp only [ofJson?, Option.bind_eq_bind, Option.bind_eq_some_iff] at read
      obtain ⟨_, _, _, _, _, _, _, _, columns, found, same⟩ := read
      cases same
      intro column listed
      obtain ⟨field, kept, rfl⟩ := Json.mem_keys_fieldsOf? _ _ columns found column listed
      simpa using (List.mem_filter.mp kept).2
  | _ => cases read

end Row

namespace Table

def floats (table : Table) : List Float := table.rows.flatMap Row.floats

-- A table nests three deep: its rows, their columns, and the parts of a cell.
theorem readable_toJson (table : Table) (legible : ∀ number ∈ table.floats, Json.Legible number) :
    Json.Readable Json.maxDepth table.toJson := by
  refine .list 126 _ fun item member => ?_
  obtain ⟨row, listed, rfl⟩ := List.mem_map.mp member
  exact row.readable_toJson (fun number float => legible number (List.mem_flatMap.mpr ⟨row, listed, float⟩)) 124

theorem ofJson?_toJson (table : Table) (ordinary : ∀ row ∈ table.rows, row.Ordinary) :
    ofJson? table.toJson = some table := by
  have rows := Json.listOf?_written Row.ofJson? Row.toJson table.rows fun row member =>
    row.ofJson?_toJson (ordinary row member)
  rw [ofJson?, toJson, rows]
  rfl

theorem ordinary_of_read? (text : String) (table : Table) (read : read? text = some table) :
    ∀ row ∈ table.rows, row.Ordinary := by
  obtain ⟨value, _, found⟩ := Option.bind_eq_some_iff.mp read
  obtain ⟨rows, items, rfl⟩ := Option.map_eq_some_iff.mp found
  intro row member
  cases value with
  | list given =>
      obtain ⟨item, _, source⟩ := Json.mapM_origin Row.ofJson? given rows items row member
      exact Row.ordinary_of_ofJson? item row source
  | _ => cases items

theorem ordinary_of_finish (extent : Extent) (shares : List Contribution) :
    ∀ row ∈ ((Draft.blank extent).applyAll shares).finish.rows, row.Ordinary := by
  have regular := (Draft.applyAll_regular _ _ shares (Draft.blank_regular extent)).align
  intro row member column listed reserved
  refine regular.ordinary row member column listed ?_
  simp only [List.mem_cons, List.not_mem_nil, or_false] at reserved ⊢
  exact reserved.elim .inl fun features => .inr (.inr features)

theorem ordinary_of_merge (tables : List Table) (table : Table) (merged : merge tables = .ok table)
    (each : ∀ other ∈ tables, ∀ row ∈ other.rows, row.Ordinary) : ∀ row ∈ table.rows, row.Ordinary := by
  obtain ⟨rows, accepted, rfl⟩ := merge_eq_ok tables table merged
  intro row member column listed
  have origin := (Alignment.mem_columns_align rows column row member).mp listed
  obtain ⟨other, given, holds⟩ := ((mergeRows_valid _ rows accepted).mem_columns _ rows column).mp origin
  obtain ⟨table, inTables, inRows⟩ := List.mem_flatMap.mp given
  exact each table inTables other inRows column holds

inductive Obtainable : Table → Prop
  | finished (extent : Extent) (shares : List Contribution) : Obtainable ((Draft.blank extent).applyAll shares).finish
  | composed (className : String) (features : List Feature) (extent : Extent) :
      Obtainable (compose className features extent)
  | read (text : String) (table : Table) (found : read? text = some table) : Obtainable table
  | merged (tables : List Table) (table : Table) (each : ∀ other ∈ tables, Obtainable other)
      (accepted : merge tables = .ok table) : Obtainable table

theorem Obtainable.ordinary (table : Table) (obtainable : Obtainable table) : ∀ row ∈ table.rows, row.Ordinary := by
  induction obtainable with
  | finished extent shares => exact ordinary_of_finish extent shares
  | composed className features extent => exact ordinary_of_finish extent _
  | read text table found => exact ordinary_of_read? text table found
  | merged tables table each accepted ih => exact ordinary_of_merge tables table accepted ih

end Table

-- Any table that can be come by.
theorem obtainable_tables_round_trip (table : Table) (obtainable : table.Obtainable) :
    (∀ row ∈ table.rows, ∀ column ∈ row.columns.keys, column ≠ levelColumn ∧ column ≠ featuresColumn) ∧
    ((∀ number ∈ table.floats, number.isFinite) →
      (∀ number ∈ table.floats, number.isFinite → Json.Legible number) →
      Table.read? table.compact = some table ∧ Table.read? table.pretty = some table) := by
  have ordinary := obtainable.ordinary
  refine ⟨fun row member column listed => ?_, fun finite given => ?_⟩
  · simpa using ordinary row member column listed
  · have readable := table.readable_toJson fun number float => given number float (finite number float)
    refine ⟨?_, ?_⟩
    · rw [Table.read?, Table.compact, Json.read?_compact _ readable]
      exact table.ofJson?_toJson ordinary
    · rw [Table.read?, Table.pretty, Json.read?_pretty _ readable]
      exact table.ofJson?_toJson ordinary

-- A column of each kind that begins at the second level, so that the first holds what stands in for it.
theorem second_level_round_trips :
    let slots := Cell.group (NameMap.ofList [("1st", some (.integer 2)), ("2nd", none)])
    let cells := NameMap.ofList [("Die", .scalar (.text "d8")), ("Names", .list ["x"]), ("None", .group {}),
      ("Rages", .scalar (.integer 2)), ("Rate", .scalar (.float 2.5)), ("Slots", slots)]
    let table := ((Draft.blank {maxLevel := 2}).applyAll [⟨"a", [⟨2, cells⟩]⟩]).finish
    table.floats = [2.5] ∧ Json.Legible 2.5 ∧ (table.rows.map fun row => row.columns.values) =
      [[none, some (.list []), some (.group {}), none, none,
        some (.group (NameMap.ofList [("1st", none), ("2nd", none)]))], cells.values.map some] ∧
      Table.read? table.compact = some table ∧ Table.read? table.pretty = some table := by
  intro slots cells table
  have floats : table.floats = [2.5] := by decide +kernel
  refine ⟨floats, Json.legible_two_and_a_half, by decide +kernel, ?_⟩
  refine (obtainable_tables_round_trip table (.finished _ _)).2 ?_ ?_
  · rw [floats]
    decide +kernel
  · rw [floats]
    rintro number member -
    rw [List.mem_singleton.mp member]
    exact Json.legible_two_and_a_half

end ClassProgression
