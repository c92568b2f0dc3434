import ClassProgression.Catalog.Json
import ClassProgression.Proofs.Catalog.Features
import ClassProgression.Proofs.Feature.RoundTrip
import ClassProgression.Proofs.Text.ByteOrder
import Mathlib.Data.List.Induction
import Mathlib.Data.List.Nodup

namespace ClassProgression

namespace Catalog

-- The first feature whose slug one before it has.
def FirstRepeat (features : List Feature) (repeated : Feature) : Prop :=
  ∃ before after, features = before ++ repeated :: after ∧ repeated.slug ∈ before.map (·.slug) ∧
    (before.map (·.slug)).Nodup

theorem distinct_or_repeated (features : List Feature) :
    (features.map (·.slug)).Nodup ∨ ∃ repeated, FirstRepeat features repeated := by
  induction features using List.reverseRecOn with
  | nil => exact .inl .nil
  | append_singleton features last ih =>
      rcases ih with distinct | ⟨repeated, before, after, rfl, taken, distinct⟩
      · by_cases taken : last.slug ∈ features.map (·.slug)
        · exact .inr ⟨last, features, [], rfl, taken, distinct⟩
        · rw [List.map_append, List.map_singleton]
          exact .inl (distinct.append (List.nodup_singleton _) (List.disjoint_singleton.mpr taken))
      · exact .inr ⟨repeated, before, after ++ [last], by simp, taken, distinct⟩

theorem ofFeatures_of_distinct (features : List Feature) (distinct : (features.map (·.slug)).Nodup) :
    ∃ catalog, ofFeatures features = .ok catalog := foldlM_add_of_nodup features empty distinct fun _ _ => rfl

theorem distinct_of_ofFeatures (features : List Feature) (catalog : Catalog)
    (made : ofFeatures features = .ok catalog) : (features.map (·.slug)).Nodup :=
  ((toList_ofFeatures features catalog made).map (·.slug)).nodup_iff.mp catalog.nodup_slugs

theorem ofFeatures_of_repeated (features : List Feature) (repeated : Feature) (first : FirstRepeat features repeated) :
    ofFeatures features = .error (.duplicateSlug repeated.slug) := by
  obtain ⟨before, after, rfl, taken, distinct⟩ := first
  obtain ⟨catalog, made⟩ := ofFeatures_of_distinct before distinct
  have registered : repeated.slug ∈ catalog.features.keys := by
    rw [← catalog.slugs_toList]
    exact ((toList_ofFeatures before catalog made).map (·.slug)).mem_iff.mpr taken
  have begun : ofFeatures (before ++ repeated :: after) =
      (catalog.add repeated >>= fun next => after.foldlM add next) := by
    rw [ofFeatures, List.foldlM_append]
    change (ofFeatures before >>= fun next => (repeated :: after).foldlM add next) = _
    rw [made]
    rfl
  rcases catalog.add_cases repeated with ⟨_, refused⟩ | ⟨absent, _⟩
  · rw [begun, refused]
    rfl
  · exact absurd registered absent

theorem ofFeatures_eq_error (features : List Feature) (fault : Fault) :
    ofFeatures features = .error fault ↔
      ∃ repeated, FirstRepeat features repeated ∧ fault = .duplicateSlug repeated.slug := by
  constructor
  · intro failed
    rcases distinct_or_repeated features with distinct | ⟨repeated, first⟩
    · obtain ⟨catalog, made⟩ := ofFeatures_of_distinct features distinct
      cases made.symm.trans failed
    · exact ⟨repeated, first, Except.error.inj (failed.symm.trans (ofFeatures_of_repeated features repeated first))⟩
  · rintro ⟨repeated, first, rfl⟩
    exact ofFeatures_of_repeated features repeated first

theorem eq_of_perm (left right : Catalog) (rearranged : left.toList.Perm right.toList) : left = right := by
  have inOrder (catalog : Catalog) : catalog.toList.Pairwise fun lower higher => lower.slug < higher.slug := by
    have keys := catalog.features.keys_pairwise
    rw [← catalog.slugs_toList] at keys
    exact List.pairwise_map.mp keys
  have same : left.toList = right.toList := by
    refine rearranged.eq_of_pairwise ?_ (inOrder left) (inOrder right)
    intro one other _ _ less more
    exact absurd (String.lt_trans less more) (String.lt_irrefl _)
  exact Except.ok.inj (left.ofFeatures_toList.symm.trans (same ▸ right.ofFeatures_toList))

theorem ofFeatures_perm (features other : List Feature) (rearranged : other.Perm features) (catalog : Catalog)
    (made : ofFeatures features = .ok catalog) : ofFeatures other = .ok catalog := by
  have distinct := (rearranged.map (·.slug)).nodup_iff.mpr (distinct_of_ofFeatures features catalog made)
  obtain ⟨result, made'⟩ := ofFeatures_of_distinct other distinct
  have same : result = catalog := eq_of_perm result catalog
    ((toList_ofFeatures other result made').trans (rearranged.trans (toList_ofFeatures features catalog made).symm))
  rw [made', same]

def InByteOrder (names : List String) : Prop := (names.map Text.bytes).Pairwise (· < ·)

theorem inByteOrder_of_ascending (names : List String) (ascending : names.Pairwise (· < ·)) : InByteOrder names :=
  List.pairwise_map.mpr (ascending.imp fun less => (Text.bytes_lt_bytes _ _).mpr less)

structure Holds (catalog : Catalog) (features : List Feature) : Prop where
  listed : catalog.toList.Perm features
  inOrder : InByteOrder (catalog.toList.map (·.slug))
  found : ∀ slug feature, catalog.get? slug = some feature ↔ feature ∈ features ∧ feature.slug = slug
  classes : ∀ className, className ∈ catalog.classes ↔ ∃ feature ∈ features, className ∈ feature.classes.keys
  classesInOrder : InByteOrder catalog.classes
  bound : ∀ className,
    (catalog.boundTo className).Perm (features.filter fun feature => (feature.binding? className).isSome)
  contributing : ∀ className,
    (catalog.contributors className).Perm (features.filter fun feature => (feature.progression? className).isSome)

theorem holds_of_ofFeatures (features : List Feature) (catalog : Catalog) (made : ofFeatures features = .ok catalog) :
    catalog.Holds features := by
  have listed := toList_ofFeatures features catalog made
  refine ⟨listed, ?_, fun slug feature => ?_, fun className => ?_, ?_, fun className => ?_, fun className => ?_⟩
  · simpa using inByteOrder_of_ascending _ catalog.features.keys_pairwise
  · rw [get?_eq_some, listed.mem_iff]
  · rw [classes, NameMap.mem_distinct, List.mem_flatMap]
    exact exists_congr fun feature => and_congr_left fun _ => listed.mem_iff
  · exact inByteOrder_of_ascending _ (NameMap.distinct_ascending _)
  · exact listed.filter _
  · exact listed.filter _

-- The values of an object in the order of their names. A name that comes again stands for its last value.
def valuesByName (fields : List (String × Json)) : List Json := (NameMap.ofList fields).values

theorem bundle?_keyed (fields : List (String × Json))
    (readable : ∀ field ∈ fields, Feature.ofJson? field.2 ≠ none) :
    bundle? (.object fields) = bundle? (.list (valuesByName fields)) := by
  let meant (value : Json) : Feature := (Feature.ofJson? value).getD {slug := ""}
  have means (field : String × Json) (member : field ∈ fields) : Feature.ofJson? field.2 = some (meant field.2) := by
    cases found : Feature.ofJson? field.2 with
    | none => exact absurd found (readable field member)
    | some feature => simp [meant, found]
  have listed := Json.mapM_of_some Feature.ofJson? meant (valuesByName fields) fun value member => by
    obtain ⟨field, given, rfl⟩ := NameMap.mem_values_ofList fields value member
    exact means field given
  rw [bundle?, bundle?, listed, Json.fieldsOf?_of_some _ meant fields means, Option.map_some, NameMap.values_map]
  rfl

-- Every value has to be a feature, also one that a later one of its name replaces.
theorem bundle?_unreadable (fields : List (String × Json)) (field : String × Json) (member : field ∈ fields)
    (unreadable : Feature.ofJson? field.2 = none) : bundle? (.object fields) = none := by
  rw [bundle?, Json.fieldsOf?_of_none _ fields field member unreadable, Option.map_none]

theorem bundle?_distinct (fields : List (String × Json)) (distinct : (fields.map (·.1)).Nodup) :
    bundle? (.object fields) = bundle? (.list (valuesByName fields)) := by
  by_cases readable : ∀ field ∈ fields, Feature.ofJson? field.2 ≠ none
  · exact bundle?_keyed fields readable
  · obtain ⟨field, given, unreadable⟩ : ∃ field ∈ fields, Feature.ofJson? field.2 = none := by
      simpa using readable
    have held : (NameMap.ofList fields).get? field.1 = some field.2 := by
      rw [NameMap.get?_ofList]
      refine NameMap.lookup_of_nodup _ _ _ ?_ (List.mem_reverse.mpr given)
      rwa [List.map_reverse, List.nodup_reverse]
    have listed : field.2 ∈ valuesByName fields := ((NameMap.ofList fields).mem_values _).mpr ⟨field.1, held⟩
    rw [bundle?_unreadable fields field given unreadable, bundle?, Json.mapM_of_none _ _ _ listed unreadable]

-- What a list of features makes, and what a bundle of named ones makes. The texts may be laid out in any way. An object
-- with a value that is no feature is no bundle, and where its names differ the list of its values is none either.
theorem catalog_holds_its_features :
    (∀ features : List Feature,
      ((∃ fault, ofFeatures features = .error fault) ↔ ¬ (features.map (·.slug)).Nodup) ∧
      (∀ fault, ofFeatures features = .error fault →
        ∃ repeated, FirstRepeat features repeated ∧ fault = .duplicateSlug repeated.slug) ∧
      (∀ catalog, ofFeatures features = .ok catalog → catalog.Holds features) ∧
      ∀ other, other.Perm features → ∀ catalog, ofFeatures other = .ok catalog ↔ ofFeatures features = .ok catalog) ∧
    ∀ keyed fields listed, Json.read? keyed = some (.object fields) →
      Json.read? listed = some (.list (valuesByName fields)) →
      ((∀ field ∈ fields, Feature.ofJson? field.2 ≠ none) ∨ (fields.map (·.1)).Nodup →
        ofBundle keyed = ofBundle listed) ∧
      ((∃ field ∈ fields, Feature.ofJson? field.2 = none) → ofBundle keyed = .error .bundleUnreadable) := by
  refine ⟨fun features => ⟨⟨?_, fun shared => ?_⟩, fun fault => (ofFeatures_eq_error features fault).mp,
    holds_of_ofFeatures features, fun other rearranged catalog => ⟨?_, ?_⟩⟩, fun keyed fields listed named values => ?_⟩
  · rintro ⟨fault, failed⟩ distinct
    obtain ⟨catalog, made⟩ := ofFeatures_of_distinct features distinct
    cases made.symm.trans failed
  · rcases distinct_or_repeated features with distinct | ⟨repeated, first⟩
    · exact absurd distinct shared
    · exact ⟨_, ofFeatures_of_repeated features repeated first⟩
  · exact ofFeatures_perm other features rearranged.symm catalog
  · exact ofFeatures_perm features other rearranged catalog
  · rw [ofBundle, ofBundle, named, values, Option.bind_some, Option.bind_some]
    refine ⟨fun proper => ?_, ?_⟩
    · rw [proper.elim (bundle?_keyed fields) (bundle?_distinct fields)]
    · rintro ⟨field, given, unreadable⟩
      rw [bundle?_unreadable fields field given unreadable]

-- A slug beyond the plain letters comes last. In the bundle the names say otherwise, and one of them comes again.
theorem accented_slug_comes_last :
    let accented : Feature := {slug := "é", classes := NameMap.ofList [("bard", {progression := some []})]}
    let plain : Feature := {slug := "z"}
    let again : Feature := {slug := "z", template := "again"}
    let fields := [("y", again.toJson), ("y", plain.toJson), ("x", accented.toJson)]
    let keyed := Json.pretty (.object fields)
    let listed := Json.compact (.list [accented.toJson, plain.toJson])
    (∃ catalog, ofFeatures [accented, plain] = .ok catalog ∧ ofFeatures [plain, accented] = .ok catalog ∧
      catalog.toList = [plain, accented] ∧ catalog.Holds [accented, plain]) ∧
    (ofFeatures [plain, accented, again, accented] = .error (.duplicateSlug "z") ∧
      ∃ repeated, FirstRepeat [plain, accented, again, accented] repeated ∧ repeated.slug = "z") ∧
    Json.read? keyed = some (.object fields) ∧ Json.read? listed = some (.list (valuesByName fields)) ∧
      (∀ field ∈ fields, Feature.ofJson? field.2 ≠ none) ∧ ofBundle keyed = ofBundle listed := by
  intro accented plain again fields keyed listed
  have readable : ∀ feature ∈ [again, plain, accented], Json.Readable 126 feature.toJson := by
    have floats : ∀ feature ∈ [again, plain, accented], feature.floats = [] := by decide +kernel
    intro feature member
    refine feature.readable_toJson (fun number float => ?_) 120
    rw [floats feature member] at float
    cases float
  have proper : ∀ feature ∈ [again, plain, accented], Feature.ofJson? feature.toJson ≠ none := by
    have noLevel : ∀ feature ∈ [again, plain, accented], ∀ row ∈ feature.rows, levelColumn ∉ row.cells.keys := by
      decide +kernel
    intro feature member
    rw [feature.ofJson?_toJson (noLevel feature member)]
    exact Option.some_ne_none feature
  have named : Json.read? keyed = some (.object fields) :=
    Json.read?_pretty _ (.object 126 fields (by simpa [fields] using readable))
  have byName : valuesByName fields = [accented.toJson, plain.toJson] := by
    have sorted : (NameMap.ofList [("y", again), ("y", plain), ("x", accented)]).values = [accented, plain] := by
      decide +kernel
    have written := NameMap.ofList_map Feature.toJson [("y", again), ("y", plain), ("x", accented)]
    exact (congrArg NameMap.values written).trans ((NameMap.values_map _ _).trans (congrArg _ sorted))
  have values : Json.read? listed = some (.list (valuesByName fields)) := by
    rw [byName]
    exact Json.read?_compact _ (.list 126 _ (by simpa using ⟨readable accented (by simp), readable plain (by simp)⟩))
  have known : ∀ field ∈ fields, Feature.ofJson? field.2 ≠ none := by simpa [fields] using proper
  obtain ⟨records, bundles⟩ := catalog_holds_its_features
  obtain ⟨catalog, made⟩ : ∃ catalog, ofFeatures [accented, plain] = .ok catalog := ⟨_, rfl⟩
  have repeats : ofFeatures [plain, accented, again, accented] = .error (.duplicateSlug "z") := by decide +kernel
  obtain ⟨_, _, holds, rearranged⟩ := records [accented, plain]
  obtain ⟨_, blames, _, _⟩ := records [plain, accented, again, accented]
  obtain ⟨repeated, first, same⟩ := blames _ repeats
  have inOrder : (ofFeatures [accented, plain]).toOption.map toList = some [plain, accented] := by decide +kernel
  rw [made] at inOrder
  refine ⟨⟨catalog, made, (rearranged _ (.swap _ _ _) catalog).mpr made, Option.some.inj inOrder, holds catalog made⟩,
    ⟨repeats, repeated, first, (Fault.duplicateSlug.inj same).symm⟩, named, values, known, ?_⟩
  exact (bundles keyed fields listed named values).1 (.inl known)

end Catalog

end ClassProgression
