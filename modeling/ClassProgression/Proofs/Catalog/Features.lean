import ClassProgression.Catalog.Basic
import ClassProgression.NameMap.Lemmas

namespace ClassProgression.Catalog

@[simp]
theorem slugs_toList (catalog : Catalog) : catalog.toList.map (·.slug) = catalog.features.keys := by
  rw [toList, NameMap.values, NameMap.keys, List.map_map]
  exact List.map_congr_left fun entry member => catalog.keyed entry member

theorem nodup_slugs (catalog : Catalog) : (catalog.toList.map (·.slug)).Nodup := by
  rw [catalog.slugs_toList]
  exact catalog.features.keys_pairwise.imp fun less => Std.ne_of_lt less

theorem slug_of_get? (catalog : Catalog) (slug : String) (feature : Feature) (held : catalog.get? slug = some feature) :
    feature.slug = slug := catalog.keyed _ (NameMap.mem_of_lookup slug feature catalog.features.entries held)

theorem get?_eq_some (catalog : Catalog) (slug : String) (feature : Feature) :
    catalog.get? slug = some feature ↔ feature ∈ catalog.toList ∧ feature.slug = slug := by
  constructor
  · intro held
    exact ⟨(catalog.features.mem_values feature).mpr ⟨slug, held⟩, catalog.slug_of_get? slug feature held⟩
  · intro ⟨listed, same⟩
    obtain ⟨name, held⟩ := (catalog.features.mem_values feature).mp listed
    have keyed := catalog.slug_of_get? name feature held
    rwa [← same, keyed]

theorem eq_of_features (left right : Catalog) (same : left.features = right.features) : left = right := by
  cases left
  cases right
  cases same
  rfl

def keyedBy (features : List Feature) : List (String × Feature) := features.map fun feature => (feature.slug, feature)

theorem keyedBy_toList (catalog : Catalog) : keyedBy catalog.toList = catalog.features.entries := by
  rw [keyedBy, toList, NameMap.values, List.map_map]
  have same : ∀ entry ∈ catalog.features.entries, (entry.2.slug, entry.2) = entry := fun entry member =>
    Prod.ext (catalog.keyed entry member) rfl
  exact (List.map_congr_left same).trans (List.map_id _)

theorem add_eq_ok (catalog next : Catalog) (feature : Feature) (added : catalog.add feature = .ok next) :
    next.features = catalog.features.insert feature.slug feature := by
  unfold add at added
  split at added
  · cases added
  · cases added
    rfl

theorem foldlM_add_eq_ok (rest : List Feature) (catalog result : Catalog)
    (added : rest.foldlM add catalog = .ok result) : result.features = catalog.features.insertAll (keyedBy rest) := by
  induction rest generalizing catalog with
  | nil => cases added; rfl
  | cons feature others ih =>
      rw [List.foldlM_cons] at added
      cases step : catalog.add feature with
      | error fault => rw [step] at added; cases added
      | ok next =>
          rw [step] at added
          rw [ih next added, add_eq_ok catalog next feature step]
          rfl

theorem foldlM_add_of_nodup (rest : List Feature) (catalog : Catalog) (distinct : (rest.map (·.slug)).Nodup)
    (fresh : ∀ feature ∈ rest, catalog.features.get? feature.slug = none) :
    ∃ result, rest.foldlM add catalog = .ok result := by
  induction rest generalizing catalog with
  | nil => exact ⟨catalog, rfl⟩
  | cons feature others ih =>
      obtain ⟨apart, distinct⟩ := List.nodup_cons.mp distinct
      have free : catalog.features.contains feature.slug = false := by
        rw [NameMap.contains, fresh feature List.mem_cons_self]
        rfl
      rw [List.foldlM_cons, add, free]
      refine ih _ distinct fun other later => ?_
      have different : other.slug ≠ feature.slug := fun same => apart (List.mem_map.mpr ⟨other, later, same⟩)
      simpa [different] using fresh other (List.mem_cons_of_mem feature later)

theorem add_cases (catalog : Catalog) (feature : Feature) :
    (feature.slug ∈ catalog.features.keys ∧ catalog.add feature = .error (.duplicateSlug feature.slug)) ∨
    (feature.slug ∉ catalog.features.keys ∧
      ∃ next, catalog.add feature = .ok next ∧ next.toList.Perm (feature :: catalog.toList)) := by
  rw [NameMap.mem_keys]
  unfold add NameMap.contains
  cases found : catalog.features.get? feature.slug with
  | some held => exact .inl ⟨rfl, rfl⟩
  | none => exact .inr ⟨Bool.false_ne_true, _, rfl, NameMap.values_insert _ _ _ found⟩

theorem toList_foldlM_add (rest : List Feature) (catalog result : Catalog) (added : rest.foldlM add catalog = .ok result) :
    result.toList.Perm (catalog.toList ++ rest) := by
  induction rest generalizing catalog with
  | nil =>
      cases added
      rw [List.append_nil]
  | cons feature others ih =>
      rw [List.foldlM_cons] at added
      rcases catalog.add_cases feature with ⟨_, refused⟩ | ⟨_, next, accepted, listed⟩
      · rw [refused] at added
        cases added
      · rw [accepted] at added
        exact (ih next added).trans ((listed.append_right others).trans List.perm_middle.symm)

theorem toList_ofFeatures (features : List Feature) (catalog : Catalog) (made : ofFeatures features = .ok catalog) :
    catalog.toList.Perm features := toList_foldlM_add features empty catalog made

theorem mem_of_ofFeatures (features : List Feature) (catalog : Catalog) (made : ofFeatures features = .ok catalog) :
    ∀ feature ∈ catalog.toList, feature ∈ features := fun _ member => (toList_ofFeatures features catalog made).mem_iff.mp member

@[simp]
theorem ofFeatures_toList (catalog : Catalog) : ofFeatures catalog.toList = .ok catalog := by
  obtain ⟨result, made⟩ := foldlM_add_of_nodup catalog.toList empty catalog.nodup_slugs fun _ _ => rfl
  have features := foldlM_add_eq_ok _ _ result made
  rw [keyedBy_toList] at features
  have same : result = catalog := eq_of_features _ _ (features.trans (NameMap.ofList_entries catalog.features))
  rw [ofFeatures, made, same]

end ClassProgression.Catalog
