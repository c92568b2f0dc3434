import ClassProgression.Proofs.Cell.RoundTrip
import ClassProgression.Proofs.Decimal.Finite

namespace ClassProgression

namespace Json

inductive FiniteFloats : Json → Prop
  | null : FiniteFloats .null
  | bool (value) : FiniteFloats (.bool value)
  | integer (value) : FiniteFloats (.integer value)
  | float (value) (finite : value.isFinite) : FiniteFloats (.float value)
  | text (value) : FiniteFloats (.text value)
  | list (items) (each : ∀ item ∈ items, FiniteFloats item) : FiniteFloats (.list items)
  | object (fields) (each : ∀ field ∈ fields, FiniteFloats field.2) : FiniteFloats (.object fields)

section Reading

theorem finiteFloats_number (spelling : Spelling) (value : Json) (read : spelling.toJson? = some value) :
    FiniteFloats value := by
  have float (read : spelling.float?.map Json.float = some value) : FiniteFloats value := by
    obtain ⟨number, found, rfl⟩ := Option.map_eq_some_iff.mp read
    exact .float number (spelling.isFinite_float? number found)
  unfold Spelling.toJson? at read
  split at read
  · dsimp only at read
    split at read
    · cases read
      exact .integer _
    · exact float read
  · exact float read

theorem finiteFloats_literal (input : List Char) (value : Json) (rest : List Char)
    (read : readLiteral? input = some (value, rest)) : FiniteFloats value := by
  obtain ⟨literal, known, found⟩ := List.exists_of_findSome?_eq_some read
  split at found
  · cases found
    simp only [literals, List.mem_cons, List.not_mem_nil, or_false] at known
    rcases known with rfl | rfl | rfl
    · exact .null
    · exact .bool true
    · exact .bool false
  · cases found

variable (item : List Char → Option (α × List Char)) (close : Char) (holds : α → Prop)
  (each : ∀ input value rest, item input = some (value, rest) → holds value)
include each

theorem readItems?_each (fuel : Nat) (input : List Char) (items : List α) (rest : List Char)
    (found : readItems? item close fuel input = some (items, rest)) : ∀ value ∈ items, holds value := by
  induction fuel generalizing input items rest with
  | zero => cases found
  | succ fuel ih =>
      obtain ⟨⟨first, behind⟩, read, more⟩ := Option.bind_eq_some_iff.mp found
      have here := each _ _ _ read
      dsimp only at more
      split at more
      · split_ifs at more
        · cases more
          exact List.forall_mem_singleton.mpr here
        · obtain ⟨⟨others, left⟩, later, same⟩ := Option.map_eq_some_iff.mp more
          cases same
          exact List.forall_mem_cons.mpr ⟨here, ih _ _ _ later⟩
      · cases more

theorem readSequence?_each (input : List Char) (items : List α) (rest : List Char)
    (found : readSequence? item close input = some (items, rest)) : ∀ value ∈ items, holds value := by
  unfold readSequence? at found
  split at found
  · split at found
    · cases found
      exact fun _ member => nomatch member
    · exact readItems?_each item close holds each _ _ _ _ found
  · cases found

end Reading

theorem finiteFloats_plain (input : List Char) (value : Json) (rest : List Char)
    (read : ((readLiteral? input).orElse fun _ => readNumber? input) = some (value, rest)) : FiniteFloats value := by
  cases literal : readLiteral? input with
  | some parts =>
      rw [literal] at read
      cases read
      exact finiteFloats_literal input value rest literal
  | none =>
      rw [literal] at read
      obtain ⟨⟨spelling, behind⟩, _, number⟩ := Option.bind_eq_some_iff.mp read
      obtain ⟨meaning, meant, same⟩ := Option.bind_eq_some_iff.mp number
      cases same
      exact finiteFloats_number spelling value meant

theorem finiteFloats_text (input : List Char) (value : Json) (rest : List Char)
    (read : (readText? input).map (fun parts => (Json.text parts.1, parts.2)) = some (value, rest)) :
    FiniteFloats value := by
  obtain ⟨parts, _, same⟩ := Option.map_eq_some_iff.mp read
  cases same
  exact .text parts.1

theorem finiteFloats_field (value : List Char → Option (Json × List Char))
    (each : ∀ input content rest, value input = some (content, rest) → FiniteFloats content) (input : List Char)
    (field : String × Json) (rest : List Char) (read : readField? value input = some (field, rest)) :
    FiniteFloats field.2 := by
  obtain ⟨⟨name, behind⟩, _, more⟩ := Option.bind_eq_some_iff.mp read
  dsimp only at more
  split at more
  · obtain ⟨⟨content, left⟩, found, same⟩ := Option.bind_eq_some_iff.mp more
    cases same
    exact each _ _ _ found
  · cases more

theorem finiteFloats_readValue? (depth : Nat) (input : List Char) (value : Json) (rest : List Char)
    (read : readValue? depth input = some (value, rest)) : FiniteFloats value := by
  induction depth generalizing input value rest with
  | zero =>
      unfold readValue? at read
      split at read
      · cases read
      · cases read
      · exact finiteFloats_text _ value rest read
      · exact finiteFloats_plain _ value rest read
  | succ depth ih =>
      unfold readValue? at read
      split at read
      · obtain ⟨⟨items, behind⟩, found, same⟩ := Option.map_eq_some_iff.mp read
        cases same
        exact .list items (readSequence?_each _ _ FiniteFloats ih _ _ _ found)
      · obtain ⟨⟨fields, behind⟩, found, same⟩ := Option.map_eq_some_iff.mp read
        cases same
        exact .object fields (readSequence?_each _ _ (fun field => FiniteFloats field.2) (finiteFloats_field _ ih) _ _ _
          found)
      · exact finiteFloats_text _ value rest read
      · exact finiteFloats_plain _ value rest read

theorem finiteFloats_read? (text : String) (value : Json) (read : read? text = some value) : FiniteFloats value := by
  unfold read? readChars? at read
  split at read
  · rename_i found
    split at read
    · cases read
      exact finiteFloats_readValue? _ _ _ _ found
    · cases read
  · cases read

section Parts

theorem FiniteFloats.items (items : List Json) (finite : FiniteFloats (.list items)) : ∀ item ∈ items, FiniteFloats item := by
  cases finite with
  | list _ each => exact each

theorem FiniteFloats.fields (fields : List (String × Json)) (finite : FiniteFloats (.object fields)) :
    ∀ field ∈ fields, FiniteFloats field.2 := by
  cases finite with
  | object _ each => exact each

theorem FiniteFloats.field (fields : List (String × Json)) (finite : FiniteFloats (.object fields)) (name : String)
    (part : Option Json) (found : field? name fields = some part) : ∀ value ∈ part, FiniteFloats value := by
  unfold field? at found
  split at found
  · cases found
    exact fun _ none => nomatch none
  · rename_i only single
    cases found
    rintro value ⟨⟩
    exact finite.fields fields only (List.mem_filter.mp (single ▸ List.mem_singleton_self only)).1
  · cases found

theorem FiniteFloats.item (items : List Json) (finite : FiniteFloats (.list items)) (place : Nat) :
    ∀ value ∈ items[place]?, FiniteFloats value :=
  fun value found => finite.items items value (List.mem_of_getElem? found)

theorem listOf?_origin (read : Json → Option α) (value : Json) (finite : FiniteFloats value) (items : List α)
    (found : listOf? read value = some items) : ∀ item ∈ items, ∃ given, FiniteFloats given ∧ read given = some item := by
  cases value with
  | list values =>
      intro item member
      obtain ⟨given, source, meant⟩ := mapM_origin read values items found item member
      exact ⟨given, finite.items values given source, meant⟩
  | _ => cases found

theorem mapOf?_origin (read : Json → Option α) (value : Json) (finite : FiniteFloats value) (m : NameMap α)
    (found : mapOf? read value = some m) : ∀ item ∈ m.values, ∃ given, FiniteFloats given ∧ read given = some item := by
  cases value with
  | object fields =>
      intro item member
      obtain ⟨entry, listed, rfl⟩ := List.mem_map.mp member
      obtain ⟨field, source, _, meant⟩ := fieldsOf?_origin read fields m found entry listed
      exact ⟨field.2, finite.fields fields field source, meant⟩
  | _ => cases found

theorem nullOr?_origin (read : Json → Option α) (value : Json) (item : α)
    (found : nullOr? read value = some (some item)) : read value = some item := by
  unfold nullOr? at found
  split at found
  · cases found
  · obtain ⟨other, meant, same⟩ := Option.map_eq_some_iff.mp found
    rw [meant, same]

end Parts

end Json

theorem Scalar.isFinite_of_ofJson? (value : Json) (finite : value.FiniteFloats) (scalar : Scalar)
    (read : ofJson? value = some scalar) : ∀ number ∈ scalar.float?, number.isFinite := by
  cases finite with
  | float value finite =>
      cases read
      rintro number ⟨⟩
      exact finite
  | integer value => cases read; exact fun _ none => nomatch none
  | text value => cases read; exact fun _ none => nomatch none
  | _ => cases read

theorem Group.isFinite_of_ofJson? (value : Json) (finite : value.FiniteFloats) (group : Group)
    (read : ofJson? value = some group) : ∀ number ∈ group.floats, number.isFinite := by
  intro number member
  obtain ⟨held, listed, float⟩ := List.mem_filterMap.mp member
  obtain ⟨scalar, rfl, float⟩ := Option.bind_eq_some_iff.mp float
  obtain ⟨given, finite, meant⟩ := Json.mapOf?_origin _ value finite group read _ listed
  exact scalar.isFinite_of_ofJson? given finite (Json.nullOr?_origin _ _ _ meant) number float

theorem Cell.isFinite_of_ofJson? (value : Json) (finite : value.FiniteFloats) (cell : Cell)
    (read : ofJson? value = some cell) : ∀ number ∈ cell.floats, number.isFinite := by
  unfold ofJson? at read
  split at read
  · obtain ⟨items, _, rfl⟩ := Option.map_eq_some_iff.mp read
    exact fun _ none => nomatch none
  · obtain ⟨group, found, rfl⟩ := Option.map_eq_some_iff.mp read
    exact group.isFinite_of_ofJson? _ finite found
  · obtain ⟨scalar, found, rfl⟩ := Option.map_eq_some_iff.mp read
    exact fun number float => scalar.isFinite_of_ofJson? _ finite found number (Option.mem_toList.mp float)

end ClassProgression
