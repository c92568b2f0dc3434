import ClassProgression.Cell.Json
import ClassProgression.NameMap.Lemmas
import ClassProgression.Proofs.Json.RoundTrip

namespace ClassProgression

namespace Json

section Lists

theorem mapM_of_some (step : α → Option β) (f : α → β) (items : List α)
    (each : ∀ item ∈ items, step item = some (f item)) : items.mapM step = some (items.map f) := by
  induction items with
  | nil => rfl
  | cons item rest ih =>
      have first := each item List.mem_cons_self
      have behind := ih fun other later => each other (List.mem_cons_of_mem item later)
      simp [first, behind]

theorem mapM_of_none (step : α → Option β) (items : List α) (item : α) (member : item ∈ items)
    (refused : step item = none) : items.mapM step = none := by
  induction items with
  | nil => cases member
  | cons head rest ih =>
      rw [List.mapM_cons]
      rcases List.mem_cons.mp member with rfl | later
      · rw [refused]
        rfl
      · rw [ih later]
        cases step head <;> rfl

theorem mapM_written (read : β → Option α) (write : α → β) (items : List α)
    (each : ∀ item ∈ items, read (write item) = some item) : (items.map write).mapM read = some items := by
  rw [List.mapM_map, mapM_of_some (read ∘ write) id items each, List.map_id]

theorem mapM_origin (read : β → Option α) (given : List β) (items : List α)
    (found : given.mapM read = some items) : ∀ item ∈ items, ∃ value ∈ given, read value = some item := by
  induction given generalizing items with
  | nil => cases found; exact fun _ member => nomatch member
  | cons head rest ih =>
      rw [List.mapM_cons] at found
      obtain ⟨first, here, behind⟩ := Option.bind_eq_some_iff.mp found
      obtain ⟨others, later, same⟩ := Option.bind_eq_some_iff.mp behind
      cases same
      intro item member
      rcases List.mem_cons.mp member with rfl | inRest
      · exact ⟨head, List.mem_cons_self, here⟩
      · obtain ⟨value, given, read⟩ := ih others later item inRest
        exact ⟨value, List.mem_cons_of_mem head given, read⟩

theorem listOf?_written (read : Json → Option α) (write : α → Json) (items : List α)
    (each : ∀ item ∈ items, read (write item) = some item) : listOf? read (.list (items.map write)) = some items :=
  mapM_written read write items each

@[simp]
theorem listOf?_texts (items : List String) : listOf? text? (texts items) = some items :=
  listOf?_written text? .text items fun _ _ => rfl

theorem readable_texts (depth : Nat) (items : List String) : Readable (depth + 1) (texts items) := by
  refine .list depth _ fun item member => ?_
  obtain ⟨text, _, rfl⟩ := List.mem_map.mp member
  exact .plain depth _ (.text text)

@[simp]
theorem word32?_nat (value : UInt32) : word32? (nat value.toNat) = some value := by
  have small : value.toNat < 2 ^ 63 := Nat.lt_trans value.toNat_lt (by decide)
  simp [nat, word32?, Int64.toInt_ofNat_of_lt small]

end Lists

section Fields

theorem fieldsOf?_entries (read : Json → Option α) (write : α → Json) (m : NameMap α)
    (each : ∀ entry ∈ m.entries, read (write entry.2) = some entry.2) :
    fieldsOf? read (m.entries.map fun entry => (entry.1, write entry.2)) = some m := by
  have entries := mapM_written (fun field : String × Json => (read field.2).map fun value => (field.1, value))
    (fun entry : String × α => (entry.1, write entry.2)) m.entries fun entry member => by
      rw [each entry member]
      rfl
  simp [fieldsOf?, entries]

theorem fieldsOf?_of_some (read : Json → Option α) (f : Json → α) (fields : List (String × Json))
    (each : ∀ field ∈ fields, read field.2 = some (f field.2)) :
    fieldsOf? read fields = some ((NameMap.ofList fields).map f) := by
  have entries := mapM_of_some (fun field : String × Json => (read field.2).map fun value => (field.1, value))
    (fun field => (field.1, f field.2)) fields fun field member => by
      rw [each field member]
      rfl
  rw [fieldsOf?, entries, Option.map_some, NameMap.ofList_map]

theorem fieldsOf?_of_none (read : Json → Option α) (fields : List (String × Json)) (field : String × Json)
    (member : field ∈ fields) (refused : read field.2 = none) : fieldsOf? read fields = none := by
  have entries := mapM_of_none (fun field : String × Json => (read field.2).map fun value => (field.1, value)) fields
    field member (by rw [refused]; rfl)
  rw [fieldsOf?, entries, Option.map_none]

theorem fieldsOf?_origin (read : Json → Option α) (fields : List (String × Json)) (m : NameMap α)
    (found : fieldsOf? read fields = some m) :
    ∀ entry ∈ m.entries, ∃ field ∈ fields, field.1 = entry.1 ∧ read field.2 = some entry.2 := by
  obtain ⟨entries, each, rfl⟩ := Option.map_eq_some_iff.mp found
  intro entry member
  have held := NameMap.lookup_of_mem entry.1 entry.2 _ (NameMap.ofList entries).ascending member
  have given : (NameMap.ofList entries).get? entry.1 = some entry.2 := held
  rw [NameMap.get?_ofList] at given
  have listed := List.mem_reverse.mp (NameMap.mem_of_lookup _ _ _ given)
  obtain ⟨field, source, whole⟩ := mapM_origin _ fields entries each _ listed
  obtain ⟨content, meant, same⟩ := Option.map_eq_some_iff.mp whole
  obtain ⟨name, rfl⟩ := Prod.mk.inj same
  exact ⟨field, source, name, meant⟩

theorem mem_keys_fieldsOf? (read : Json → Option α) (fields : List (String × Json)) (m : NameMap α)
    (found : fieldsOf? read fields = some m) (name : String) (listed : name ∈ m.keys) :
    ∃ field ∈ fields, field.1 = name := by
  obtain ⟨entry, member, rfl⟩ := List.mem_map.mp listed
  obtain ⟨field, given, named, _⟩ := fieldsOf?_origin read fields m found entry member
  exact ⟨field, given, named⟩

variable (name : String) (value : Json) (rest : List (String × Json))

theorem field?_head (absent : ∀ field ∈ rest, field.1 ≠ name) :
    field? name ((name, value) :: rest) = some (some value) := by
  have none : (rest.filter fun field => field.1 = name) = [] :=
    List.filter_eq_nil_iff.mpr fun field member => by simpa using absent field member
  rw [field?, List.filter_cons_of_pos (by simp), none]

theorem field?_tail (other : String) (different : other ≠ name) :
    field? name ((other, value) :: rest) = field? name rest := by
  rw [field?, List.filter_cons_of_neg (by simpa using different), field?]

variable (names : List String)

theorem others_head (named : name ∈ names) : others names ((name, value) :: rest) = others names rest :=
  List.filter_cons_of_neg (by simpa using named)

theorem others_of_none (unnamed : ∀ field ∈ rest, field.1 ∉ names) : others names rest = rest :=
  List.filter_eq_self.mpr fun field member => by simpa using unnamed field member

end Fields

end Json

namespace Scalar

def float? : Scalar → Option Float
  | .float value => some value
  | _ => none

@[simp]
theorem ofJson?_toJson (value : Scalar) : ofJson? value.toJson = some value := by cases value <;> rfl

theorem plain_toJson (value : Scalar) (legible : ∀ number ∈ value.float?, Json.Legible number) :
    Json.Plain value.toJson := by
  cases value with
  | integer value => exact .integer value
  | float value => exact .float value (legible value rfl)
  | text value => exact .text value

end Scalar

namespace Group

def floats (group : Group) : List Float := group.values.filterMap fun member => member.bind Scalar.float?

def memberJson (member : Option Scalar) : Json :=
  match member with
  | some value => value.toJson
  | none => .null

@[simp]
theorem ofJson?_memberJson (member : Option Scalar) :
    Json.nullOr? Scalar.ofJson? (memberJson member) = some member := by
  cases member with
  | none => rfl
  | some value => cases value <;> rfl

@[simp]
theorem ofJson?_toJson (group : Group) : ofJson? group.toJson = some group :=
  Json.fieldsOf?_entries _ memberJson group fun entry _ => ofJson?_memberJson entry.2

theorem readable_toJson (group : Group) (legible : ∀ number ∈ group.floats, Json.Legible number) (depth : Nat) :
    Json.Readable (depth + 1) group.toJson := by
  refine .object depth _ fun field member => ?_
  obtain ⟨⟨name, held⟩, listed, rfl⟩ := List.mem_map.mp member
  cases held with
  | none => exact .plain depth _ .null
  | some value =>
      refine .plain depth _ (value.plain_toJson fun number float => legible number ?_)
      exact List.mem_filterMap.mpr ⟨some value, List.mem_map.mpr ⟨_, listed, rfl⟩, float⟩

end Group

namespace Cell

def floats : Cell → List Float
  | .scalar value => value.float?.toList
  | .list _ => []
  | .group members => members.floats

@[simp]
theorem ofJson?_toJson (cell : Cell) : ofJson? cell.toJson = some cell := by
  cases cell with
  | scalar value => cases value <;> rfl
  | list items => exact congrArg (Option.map Cell.list) (Json.listOf?_texts items)
  | group members => exact congrArg (Option.map Cell.group) members.ofJson?_toJson

@[simp]
theorem nullOr?_toJson (cell : Cell) : Json.nullOr? ofJson? cell.toJson = some (some cell) := by
  have read : Json.nullOr? ofJson? cell.toJson = (ofJson? cell.toJson).map some := by
    cases cell with
    | scalar value => cases value <;> rfl
    | list items => rfl
    | group members => rfl
  rw [read, ofJson?_toJson]
  rfl

theorem readable_toJson (cell : Cell) (legible : ∀ number ∈ cell.floats, Json.Legible number) (depth : Nat) :
    Json.Readable (depth + 1) cell.toJson := by
  cases cell with
  | scalar value =>
      exact .plain _ _ (value.plain_toJson fun number float => legible number (Option.mem_toList.mpr float))
  | list items => exact Json.readable_texts depth items
  | group members => exact members.readable_toJson legible depth

end Cell

end ClassProgression
