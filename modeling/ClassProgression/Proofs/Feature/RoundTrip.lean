import ClassProgression.Feature.Json
import ClassProgression.Proofs.Json.Finite

namespace ClassProgression

namespace FragmentRow

def floats (row : FragmentRow) : List Float := row.cells.values.flatMap Cell.floats

structure Proper (row : FragmentRow) : Prop where
  noLevel : levelColumn ∉ row.cells.keys
  finite : ∀ number ∈ row.floats, number.isFinite

def cellFields (row : FragmentRow) : List (String × Json) := row.cells.entries.map fun entry => (entry.1, entry.2.toJson)

theorem ofJson?_toJson (row : FragmentRow) (noLevel : levelColumn ∉ row.cells.keys) : ofJson? row.toJson = some row := by
  have unnamed : ∀ field ∈ row.cellFields, field.1 ≠ levelColumn := by
    intro field member same
    obtain ⟨entry, listed, rfl⟩ := List.mem_map.mp member
    exact noLevel (same ▸ List.mem_map_of_mem listed)
  have level : Json.field? levelColumn ((levelColumn, Json.nat row.level.toNat) :: row.cellFields) =
      some (some (Json.nat row.level.toNat)) := Json.field?_head _ _ _ unnamed
  have others : Json.others [levelColumn] ((levelColumn, Json.nat row.level.toNat) :: row.cellFields) = row.cellFields :=
    (Json.others_head _ _ _ _ (List.mem_singleton_self _)).trans
      (Json.others_of_none _ _ fun field member => by simpa using unnamed field member)
  have cells : Json.fieldsOf? Cell.ofJson? row.cellFields = some row.cells :=
    Json.fieldsOf?_entries _ Cell.toJson row.cells fun entry _ => entry.2.ofJson?_toJson
  change ofJson? (.object ((levelColumn, Json.nat row.level.toNat) :: row.cellFields)) = some row
  simp [ofJson?, level, others, cells]

theorem readable_toJson (row : FragmentRow) (legible : ∀ number ∈ row.floats, Json.Legible number) (depth : Nat) :
    Json.Readable (depth + 2) row.toJson := by
  refine .object (depth + 1) _ fun field member => ?_
  rcases List.mem_cons.mp member with rfl | member
  · exact .plain _ _ (.integer _)
  · obtain ⟨entry, listed, rfl⟩ := List.mem_map.mp member
    refine entry.2.readable_toJson (fun number float => legible number ?_) depth
    exact List.mem_flatMap.mpr ⟨entry.2, List.mem_map_of_mem listed, float⟩

theorem proper_of_ofJson? (value : Json) (finite : value.FiniteFloats) (row : FragmentRow)
    (read : ofJson? value = some row) : row.Proper := by
  cases value with
  | object fields =>
      simp only [ofJson?, Option.bind_eq_bind, Option.bind_eq_some_iff] at read
      obtain ⟨_, _, _, _, cells, found, same⟩ := read
      cases same
      have origin := Json.fieldsOf?_origin _ _ cells found
      refine ⟨fun listed => ?_, fun number member => ?_⟩
      · obtain ⟨entry, given, same⟩ := List.mem_map.mp listed
        obtain ⟨field, kept, name, _⟩ := origin entry given
        have other := (List.mem_filter.mp kept).2
        simp [name, same] at other
      · obtain ⟨cell, listed, float⟩ := List.mem_flatMap.mp member
        obtain ⟨entry, given, rfl⟩ := List.mem_map.mp listed
        obtain ⟨field, kept, _, meant⟩ := origin entry given
        exact entry.2.isFinite_of_ofJson? _ (finite.fields fields field (List.mem_filter.mp kept).1) meant number float
  | _ => cases read

end FragmentRow

section Parts

def optional (name : String) (value : Option Json) : List (String × Json) := (value.map fun value => (name, value)).toList

def mapPart (write : α → Json) (m : NameMap α) : Option Json :=
  if m.isEmpty then none else some (.object (m.entries.map fun entry => (entry.1, write entry.2)))

def textsPart (items : List String) : Option Json := if items.isEmpty then none else some (Json.texts items)

theorem optionalMap_eq (name : String) (write : α → Json) (m : NameMap α) :
    optionalMap name write m = optional name (mapPart write m) := by
  unfold optionalMap mapPart
  split <;> rfl

theorem optionalTexts_eq (name : String) (items : List String) :
    optionalTexts name items = optional name (textsPart items) := by
  unfold optionalTexts textsPart
  split <;> rfl

theorem orDefault_mapPart (read : Json → Option α) (write : α → Json) (m : NameMap α)
    (each : ∀ entry ∈ m.entries, read (write entry.2) = some entry.2) :
    Json.orDefault {} (Json.mapOf? read) (mapPart write m) = some m := by
  unfold mapPart
  split
  · rename_i empty
    have none : m = {} := NameMap.eq_of_get? _ _ fun name => by
      rw [NameMap.get?, List.isEmpty_iff.mp empty]
      rfl
    rw [none]
    rfl
  · exact Json.fieldsOf?_entries read write m each

theorem orDefault_textsPart (items : List String) :
    Json.orDefault [] (Json.listOf? Json.text?) (textsPart items) = some items := by
  unfold textsPart
  split
  · rename_i empty
    rw [List.isEmpty_iff.mp empty]
    rfl
  · exact Json.listOf?_texts items

theorem readable_mapPart (write : α → Json) (m : NameMap α) (depth : Nat)
    (each : ∀ entry ∈ m.entries, Json.Readable depth (write entry.2)) (value : Json) (present : mapPart write m = some value) :
    Json.Readable (depth + 1) value := by
  unfold mapPart at present
  split at present
  · cases present
  · cases present
    refine .object depth _ fun field member => ?_
    obtain ⟨entry, listed, rfl⟩ := List.mem_map.mp member
    exact each entry listed

theorem readable_textsPart (items : List String) (depth : Nat) (value : Json) (present : textsPart items = some value) :
    Json.Readable (depth + 1) value := by
  unfold textsPart at present
  split at present
  · cases present
  · cases present
    exact Json.readable_texts depth items

@[simp]
theorem mem_optional (name : String) (value : Option Json) (field : String × Json) :
    field ∈ optional name value ↔ field.1 = name ∧ value = some field.2 := by
  obtain ⟨other, content⟩ := field
  cases value <;> simp [optional, eq_comm]

end Parts

namespace Binding

def rows (binding : Binding) : List FragmentRow := binding.progression.getD []

def progressionPart (binding : Binding) : Option Json :=
  binding.progression.map fun rows => .list (rows.map FragmentRow.toJson)

theorem toJson_eq (binding : Binding) : binding.toJson = .object (optional "progression" binding.progressionPart ++
    optional "variables" (mapPart .text binding.terms) ++ optional "children" (textsPart binding.children)) := by
  rw [toJson, optionalMap_eq, optionalTexts_eq, progressionPart]
  cases binding.progression <;> rfl

theorem ofJson?_optional (progression terms children : Option Json) :
    ofJson? (.object (optional "progression" progression ++ optional "variables" terms ++ optional "children" children)) =
      ofParts? progression terms children := by
  cases progression <;> cases terms <;> cases children <;> simp [ofJson?, optional, Json.field?]

-- An absent progression is left out, and an empty one is written as an empty list.
theorem orDefault_progressionPart (binding : Binding) (noLevel : ∀ row ∈ binding.rows, levelColumn ∉ row.cells.keys) :
    Json.orDefault none (Json.nullOr? (Json.listOf? FragmentRow.ofJson?)) binding.progressionPart =
      some binding.progression := by
  unfold rows at noLevel
  unfold progressionPart
  cases own : binding.progression with
  | none => rfl
  | some rows =>
      rw [own] at noLevel
      have written := Json.listOf?_written FragmentRow.ofJson? FragmentRow.toJson rows fun row member =>
        row.ofJson?_toJson (noLevel row member)
      exact congrArg (Option.map some) written

theorem ofJson?_toJson (binding : Binding) (noLevel : ∀ row ∈ binding.rows, levelColumn ∉ row.cells.keys) :
    ofJson? binding.toJson = some binding := by
  have terms := orDefault_mapPart Json.text? .text binding.terms fun _ _ => rfl
  rw [toJson_eq, ofJson?_optional, ofParts?, orDefault_progressionPart binding noLevel, terms, orDefault_textsPart]
  rfl

theorem readable_toJson (binding : Binding)
    (legible : ∀ row ∈ binding.rows, ∀ number ∈ row.floats, Json.Legible number) (depth : Nat) :
    Json.Readable (depth + 4) binding.toJson := by
  rw [toJson_eq]
  refine .object (depth + 3) _ fun field member => ?_
  simp only [List.mem_append, mem_optional, or_assoc] at member
  rcases member with ⟨_, progression⟩ | ⟨_, terms⟩ | ⟨_, children⟩
  · obtain ⟨rows, own, same⟩ := Option.map_eq_some_iff.mp progression
    rw [← same]
    refine .list (depth + 2) _ fun item member => ?_
    obtain ⟨row, listed, rfl⟩ := List.mem_map.mp member
    exact row.readable_toJson (legible row (by rw [Binding.rows, own]; exact listed)) depth
  · exact readable_mapPart _ _ (depth + 2) (fun entry _ => .plain _ _ (.text entry.2)) _ terms
  · exact readable_textsPart _ (depth + 2) _ children

theorem proper_of_ofParts? (progression terms children : Option Json) (finite : ∀ value ∈ progression, value.FiniteFloats)
    (binding : Binding) (read : ofParts? progression terms children = some binding) : ∀ row ∈ binding.rows, row.Proper := by
  simp only [ofParts?, Option.bind_eq_bind, Option.bind_eq_some_iff] at read
  obtain ⟨held, found, _, _, _, _, same⟩ := read
  cases same
  intro row member
  cases held with
  | none => cases member
  | some rows =>
      cases progression with
      | none => cases found
      | some value =>
          have listed := Json.nullOr?_origin _ value rows found
          obtain ⟨given, finite, meant⟩ := Json.listOf?_origin _ value (finite value rfl) rows listed row member
          exact row.proper_of_ofJson? given finite meant

theorem proper_of_ofJson? (value : Json) (finite : value.FiniteFloats) (binding : Binding)
    (read : ofJson? value = some binding) : ∀ row ∈ binding.rows, row.Proper := by
  cases value with
  | object fields =>
      simp only [ofJson?, Option.bind_eq_bind, Option.bind_eq_some_iff] at read
      obtain ⟨progression, found, _, _, _, _, read⟩ := read
      exact proper_of_ofParts? progression _ _ (finite.field fields "progression" progression found) binding read
  | list items =>
      simp only [ofJson?] at read
      split at read
      · exact proper_of_ofParts? _ _ _ (finite.item items 0) binding read
      · cases read
  | _ => cases read

end Binding

namespace Feature

def rows (feature : Feature) : List FragmentRow := feature.classes.values.flatMap Binding.rows

def floats (feature : Feature) : List Float := feature.rows.flatMap FragmentRow.floats

theorem mem_rows (feature : Feature) (entry : String × Binding) (bound : entry ∈ feature.classes.entries)
    (row : FragmentRow) (listed : row ∈ entry.2.rows) : row ∈ feature.rows :=
  List.mem_flatMap.mpr ⟨entry.2, List.mem_map_of_mem bound, listed⟩

theorem toJson_eq (feature : Feature) : feature.toJson = .object (("slug", .text feature.slug) ::
    ("template", .text feature.template) :: (optional "classes" (mapPart Binding.toJson feature.classes) ++
      optional "children" (textsPart feature.children))) := by
  rw [toJson, optionalMap_eq, optionalTexts_eq]

theorem names_toJson (feature : Feature) :
    ∃ fields, feature.toJson = .object fields ∧ ∀ field ∈ fields, field.1 ∈ fieldNames := by
  refine ⟨_, feature.toJson_eq, fun field member => ?_⟩
  simp only [List.mem_cons, List.mem_append, mem_optional] at member
  rcases member with rfl | rfl | ⟨name, _⟩ | ⟨name, _⟩ <;> simp [fieldNames, *]

theorem ofJson?_optional (slug template : Json) (classes children : Option Json) :
    ofJson? (.object (("slug", slug) :: ("template", template) :: (optional "classes" classes ++ optional "children" children))) =
      ofParts? (some slug) (some template) classes children := by
  cases classes <;> cases children <;> simp [ofJson?, optional, Json.field?]

theorem ofJson?_toJson (feature : Feature) (noLevel : ∀ row ∈ feature.rows, levelColumn ∉ row.cells.keys) :
    ofJson? feature.toJson = some feature := by
  have classes := orDefault_mapPart Binding.ofJson? Binding.toJson feature.classes fun entry bound =>
    entry.2.ofJson?_toJson fun row listed => noLevel row (feature.mem_rows entry bound row listed)
  rw [toJson_eq, ofJson?_optional, ofParts?, classes, orDefault_textsPart]
  rfl

theorem readable_toJson (feature : Feature) (legible : ∀ number ∈ feature.floats, Json.Legible number) (depth : Nat) :
    Json.Readable (depth + 6) feature.toJson := by
  rw [toJson_eq]
  refine .object (depth + 5) _ fun field member => ?_
  simp only [List.mem_cons, List.mem_append, mem_optional] at member
  rcases member with rfl | rfl | ⟨_, classes⟩ | ⟨_, children⟩
  · exact .plain _ _ (.text feature.slug)
  · exact .plain _ _ (.text feature.template)
  · refine readable_mapPart _ _ (depth + 4) (fun entry bound => ?_) _ classes
    refine entry.2.readable_toJson (fun row listed number float => legible number ?_) depth
    exact List.mem_flatMap.mpr ⟨row, feature.mem_rows entry bound row listed, float⟩
  · exact readable_textsPart _ (depth + 4) _ children

theorem proper_of_ofParts? (slug template classes children : Option Json) (finite : ∀ value ∈ classes, value.FiniteFloats)
    (feature : Feature) (read : ofParts? slug template classes children = some feature) :
    ∀ row ∈ feature.rows, row.Proper := by
  simp only [ofParts?, Option.bind_eq_bind, Option.bind_eq_some_iff] at read
  obtain ⟨_, _, _, _, bindings, found, _, _, same⟩ := read
  cases same
  intro row member
  obtain ⟨binding, bound, listed⟩ := List.mem_flatMap.mp member
  cases classes with
  | none => cases found; cases bound
  | some value =>
      obtain ⟨given, finite, meant⟩ := Json.mapOf?_origin _ value (finite value rfl) bindings found binding bound
      exact binding.proper_of_ofJson? given finite meant row listed

theorem proper_of_ofJson? (value : Json) (finite : value.FiniteFloats) (feature : Feature)
    (read : ofJson? value = some feature) : ∀ row ∈ feature.rows, row.Proper := by
  cases value with
  | object fields =>
      simp only [ofJson?, Option.bind_eq_bind, Option.bind_eq_some_iff] at read
      obtain ⟨_, _, _, _, classes, found, _, _, read⟩ := read
      exact proper_of_ofParts? _ _ classes _ (finite.field fields "classes" classes found) feature read
  | list items =>
      simp only [ofJson?] at read
      split at read
      · exact proper_of_ofParts? _ _ _ _ (finite.item items 2) feature read
      · cases read
  | _ => cases read

end Feature

end ClassProgression
