import ClassProgression.Catalog.Json
import ClassProgression.Proofs.Catalog.Features
import ClassProgression.Proofs.Feature.RoundTrip
import ClassProgression.Proofs.Json.Record

namespace ClassProgression

namespace Json

def listText (texts : List String) : String := "[" ++ ",".intercalate texts ++ "]"

theorem sequence_eq_intercalate (write : α → List Char) (items : List α) :
    sequence [] write items = [','].intercalate (items.map write) := by
  induction items with
  | nil => rfl
  | cons item more ih =>
      cases more with
      | nil => simp [sequence]
      | cons next others =>
          rw [sequence_cons, ih]
          simp [List.intercalate_cons_cons]

theorem read?_listText (items : List Json) (write : Json → String)
    (finds : ∀ item ∈ items, Finds (readValue? (maxDepth - 1)) item (write item).toList) :
    read? (listText (items.map write)) = some (.list items) := by
  have chars : (listText (items.map write)).toList =
      '[' :: (sequence [] (fun item => (write item).toList) items ++ [] ++ [']']) := by
    rw [sequence_eq_intercalate, listText, String.toList_append, String.toList_append, String.toList_intercalate,
      List.map_map]
    simp [Function.comp_def]
  rw [read?, chars]
  exact readChars?_of_finds _ _ (finds_list (maxDepth - 1) [] [] blank_nil blank_nil items _ finds)

end Json

namespace Feature

-- What the text of a feature takes for granted.
structure Proper (feature : Feature) : Prop where
  noLevel : ∀ row ∈ feature.rows, levelColumn ∉ row.cells.keys
  finite : ∀ number ∈ feature.floats, number.isFinite

theorem proper_of_rows (feature : Feature) (each : ∀ row ∈ feature.rows, row.Proper) : feature.Proper := by
  refine ⟨fun row listed => (each row listed).noLevel, fun number member => ?_⟩
  obtain ⟨row, listed, float⟩ := List.mem_flatMap.mp member
  exact (each row listed).finite number float

end Feature

inductive TextLayout : (Json → String) → Prop
  | compact : TextLayout Json.compact
  | pretty : TextLayout Json.pretty

namespace TextLayout

variable (write : Json → String) (layout : TextLayout write)
include layout

theorem finds (depth : Nat) (value : Json) (readable : Json.Readable depth value) :
    Json.Finds (Json.readValue? depth) value (write value).toList := by
  cases layout with
  | compact => rw [Json.compact, String.toList_ofList]; exact Json.finds_compact depth value readable
  | pretty => rw [Json.pretty, String.toList_ofList]; exact Json.finds_pretty depth value readable 0

theorem read?_feature (feature : Feature) (proper : feature.Proper)
    (legible : ∀ number ∈ feature.floats, number.isFinite → Json.Legible number) :
    Feature.read? (write feature.toJson) = some feature := by
  have readable := feature.readable_toJson (fun number float => legible number float (proper.finite number float)) 121
  have text := Json.readChars?_of_finds _ _ (finds write layout Json.maxDepth _ readable)
  obtain ⟨fields, same, named⟩ := feature.names_toJson
  have record : Json.readRecord? Feature.fieldNames (write feature.toJson) = some feature.toJson := by
    rw [same] at text ⊢
    exact Json.readRecord?_of_read? Feature.fieldNames _ fields text named
  rw [Feature.read?, record]
  exact feature.ofJson?_toJson proper.noLevel

theorem ofBundle_listText (features : List Feature) (each : ∀ feature ∈ features, feature.Proper)
    (legible : ∀ feature ∈ features, ∀ number ∈ feature.floats, number.isFinite → Json.Legible number) :
    Catalog.ofBundle (Json.listText (features.map fun feature => write feature.toJson)) = Catalog.ofFeatures features := by
  have text := Json.read?_listText (features.map Feature.toJson) write fun item member => by
    obtain ⟨feature, given, rfl⟩ := List.mem_map.mp member
    refine finds write layout _ _ (feature.readable_toJson (fun number float => ?_) 120)
    exact legible feature given number float ((each feature given).finite number float)
  have decoded := Json.mapM_written Feature.ofJson? Feature.toJson features fun feature given =>
    feature.ofJson?_toJson (each feature given).noLevel
  rw [List.map_map] at text
  have read : (Json.read? (Json.listText (features.map fun feature => write feature.toJson))).bind Catalog.bundle? =
      some features := (congrArg (·.bind Catalog.bundle?) text).trans decoded
  rw [Catalog.ofBundle, read]

theorem ofBundle_toList (catalog : Catalog) (each : ∀ feature ∈ catalog.toList, feature.Proper)
    (legible : ∀ feature ∈ catalog.toList, ∀ number ∈ feature.floats, number.isFinite → Json.Legible number) :
    Catalog.ofBundle (Json.listText (catalog.toList.map fun feature => write feature.toJson)) = .ok catalog := by
  rw [ofBundle_listText write layout catalog.toList each legible, catalog.ofFeatures_toList]

end TextLayout

namespace Catalog

theorem proper_of_bundle? (value : Json) (finite : value.FiniteFloats) (features : List Feature)
    (read : bundle? value = some features) : ∀ feature ∈ features, feature.Proper := by
  intro feature member
  refine feature.proper_of_rows ?_
  cases value with
  | list items =>
      obtain ⟨given, finite, meant⟩ := Json.listOf?_origin _ _ finite features read feature member
      exact feature.proper_of_ofJson? given finite meant
  | object fields =>
      obtain ⟨m, found, rfl⟩ := Option.map_eq_some_iff.mp read
      obtain ⟨given, finite, meant⟩ := Json.mapOf?_origin _ (.object fields) finite m found feature member
      exact feature.proper_of_ofJson? given finite meant
  | _ => cases read

theorem proper_of_ofBundle (text : String) (catalog : Catalog) (read : ofBundle text = .ok catalog) :
    ∀ feature ∈ catalog.toList, feature.Proper := by
  unfold ofBundle at read
  split at read
  · rename_i features found
    obtain ⟨value, parsed, meant⟩ := Option.bind_eq_some_iff.mp found
    intro feature member
    exact proper_of_bundle? value (Json.finiteFloats_read? text value parsed) features meant feature
      (mem_of_ofFeatures features catalog read feature member)
  · cases read

end Catalog

-- In either layout, with floats whose texts are taken to be read back.
theorem bundles_round_trip (write : Json → String) (layout : TextLayout write) :
    (∀ feature : Feature, feature.Proper →
      (∀ number ∈ feature.floats, number.isFinite → Json.Legible number) →
      Feature.read? (write feature.toJson) = some feature) ∧
    ∀ text catalog, Catalog.ofBundle text = .ok catalog →
      (∀ feature ∈ catalog.toList, feature.Proper) ∧
      ((∀ feature ∈ catalog.toList, ∀ number ∈ feature.floats, number.isFinite → Json.Legible number) →
        Catalog.ofBundle (Json.listText (catalog.toList.map fun feature => write feature.toJson)) = .ok catalog) := by
  refine ⟨fun feature proper legible => layout.read?_feature write feature proper legible, fun text catalog read => ?_⟩
  have proper := Catalog.proper_of_ofBundle text catalog read
  exact ⟨proper, layout.ofBundle_toList write catalog proper⟩

-- An absent progression, an empty one, and one with a float; most of what can be empty is.
theorem bundle_of_three_progressions_round_trips :
    let row : FragmentRow := ⟨1, NameMap.ofList [("Rate", .scalar (.float 2.5))]⟩
    let bindings : List (String × Binding) :=
      [("Bard", {progression := some [row]}), ("Monk", {progression := some []}), ("Rogue", {children := ["b"]})]
    let feature : Feature := {slug := "a", classes := NameMap.ofList bindings}
    let text := Json.listText [feature.toJson.compact]
    feature.floats = [2.5] ∧ Json.Legible 2.5 ∧ Feature.read? feature.toJson.compact = some feature ∧
      ∃ catalog, Catalog.ofBundle text = .ok catalog ∧ catalog.toList = [feature] ∧ feature.Proper ∧
        Catalog.ofBundle (Json.listText (catalog.toList.map fun feature => feature.toJson.compact)) = .ok catalog := by
  intro row bindings feature text
  have floats : feature.floats = [2.5] := by decide +kernel
  have legible : ∀ number ∈ feature.floats, number.isFinite → Json.Legible number := by
    rw [floats]
    rintro number member -
    rw [List.mem_singleton.mp member]
    exact Json.legible_two_and_a_half
  have proper : feature.Proper := ⟨by decide +kernel, by rw [floats]; decide +kernel⟩
  obtain ⟨alone, bundled⟩ := bundles_round_trip Json.compact .compact
  let catalog : Catalog := ⟨NameMap.ofList [("a", feature)], by decide +kernel⟩
  have holds : catalog.toList = [feature] := by decide +kernel
  have proper : ∀ other ∈ catalog.toList, other.Proper := by rw [holds]; exact List.forall_mem_singleton.mpr proper
  have each : ∀ other ∈ catalog.toList, ∀ number ∈ other.floats, number.isFinite → Json.Legible number := by
    rw [holds]
    exact List.forall_mem_singleton.mpr legible
  have read : Catalog.ofBundle text = .ok catalog := by
    have given := TextLayout.compact.ofBundle_toList _ catalog proper each
    rwa [holds] at given
  have again := bundled text catalog read
  exact ⟨floats, Json.legible_two_and_a_half, alone feature (proper feature (by simp [holds])) legible, catalog, read,
    holds, again.1 feature (by simp [holds]), again.2 each⟩

end ClassProgression
