import ClassProgression.Proofs.Catalog.Features
import ClassProgression.Table.Composition
import Mathlib.Data.List.Sort
import Mathlib.Data.Set.Basic

namespace ClassProgression

namespace Sorted

section Keys

variable [LE κ] [DecidableLE κ] [Std.IsLinearOrder κ] (key : α → κ)

theorem transitive (first second third : α) (low : decide (key first ≤ key second) = true)
    (high : decide (key second ≤ key third) = true) : decide (key first ≤ key third) = true :=
  decide_eq_true (Std.le_trans (of_decide_eq_true low) (of_decide_eq_true high))

theorem total (left right : α) : (decide (key left ≤ key right) || decide (key right ≤ key left)) = true := by
  simpa using Std.le_total (a := key left) (b := key right)

theorem ascending_mergeSort (items : List α) :
    (items.mergeSort fun left right => decide (key left ≤ key right)).Pairwise fun left right => key left ≤ key right :=
  (List.pairwise_mergeSort (transitive key) (total key) items).imp of_decide_eq_true

variable [LT κ] [Std.LawfulOrderLT κ]

theorem strictly_mergeSort (items : List α) (distinct : (items.map key).Nodup) :
    (items.mergeSort fun left right => decide (key left ≤ key right)).Pairwise fun left right => key left < key right := by
  have sorted : ((items.mergeSort fun left right => decide (key left ≤ key right)).map key).Nodup :=
    ((List.mergeSort_perm items _).map key).nodup_iff.mpr distinct
  exact (ascending_mergeSort key items).imp₂ (fun _ _ => Std.lt_of_le_of_ne) (List.pairwise_map.mp sorted)

omit [DecidableLE κ] in
theorem eq_of_members (left right : List α) (leftStrict : left.Pairwise fun lower higher => key lower < key higher)
    (rightStrict : right.Pairwise fun lower higher => key lower < key higher)
    (same : ∀ item, item ∈ left ↔ item ∈ right) : left = right := by
  have irreflexive : Std.Irrefl fun lower higher : α => key lower < key higher := ⟨fun _ => Std.lt_irrefl⟩
  have antisymmetric : Std.Antisymm fun lower higher : α => key lower < key higher :=
    ⟨fun _ _ less greater => absurd (Std.lt_trans less greater) Std.lt_irrefl⟩
  exact leftStrict.eq_of_mem_iff rightStrict same

theorem mergeSort_congr (left right : List α) (leftDistinct : (left.map key).Nodup)
    (rightDistinct : (right.map key).Nodup) (same : ∀ item, item ∈ left ↔ item ∈ right) :
    (left.mergeSort fun lower higher => decide (key lower ≤ key higher)) =
      right.mergeSort fun lower higher => decide (key lower ≤ key higher) := by
  refine eq_of_members key _ _ (strictly_mergeSort key left leftDistinct) (strictly_mergeSort key right rightDistinct) ?_
  intro item
  rw [List.mem_mergeSort, List.mem_mergeSort, same]

end Keys

end Sorted

namespace Contribution

def ordered (share : Contribution) : Contribution :=
  {share with fragment := share.fragment.mergeSort fun left right => decide (left.level ≤ right.level)}

end Contribution

namespace Draft

theorem apply_ordered (draft : Draft) (share : Contribution) :
    draft.apply share.ordered.fragment = draft.apply share.fragment := by
  have again := List.mergeSort_of_pairwise
    ((Sorted.ascending_mergeSort FragmentRow.level share.fragment).imp decide_eq_true)
  rw [apply, apply, Step.ofFragment, Step.ofFragment, Contribution.ordered, again]

theorem applyAll_ordered (draft : Draft) (shares : List Contribution) :
    draft.applyAll (shares.map .ordered) = draft.applyAll shares := by
  rw [applyAll, applyAll, List.foldl_map]
  simp only [apply_ordered]

end Draft

-- Each slug with a fragment for the class, together with the rows of the fragment in no order.
def shareSet (className : String) (features : List Feature) : Set (String × Set FragmentRow) :=
  {share | ∃ feature ∈ features, ∃ fragment, feature.progression? className = some fragment ∧
    share = (feature.slug, {row | row ∈ fragment})}

def LevelsDistinct (className : String) (features : List Feature) : Prop :=
  ∀ feature ∈ features, ∀ fragment, feature.progression? className = some fragment → (fragment.map (·.level)).Nodup

namespace Contribution

theorem mem_ordered_ofFeatures (className : String) (features : List Feature) (share : Contribution) :
    share ∈ (ofFeatures className features).map ordered ↔ ∃ feature ∈ features, ∃ fragment,
      feature.progression? className = some fragment ∧ share = ordered ⟨feature.slug, fragment⟩ := by
  simp only [ofFeatures, ofFeature?, List.mem_map, List.mem_filterMap, List.mem_mergeSort, Option.map_eq_some_iff]
  constructor
  · rintro ⟨_, ⟨feature, given, fragment, own, rfl⟩, rfl⟩
    exact ⟨feature, given, fragment, own, rfl⟩
  · rintro ⟨feature, given, fragment, own, rfl⟩
    exact ⟨_, ⟨feature, given, fragment, own, rfl⟩, rfl⟩

theorem strictly_ofFeatures (className : String) (features : List Feature)
    (slugs : (features.map (·.slug)).Nodup) :
    ((ofFeatures className features).map ordered).Pairwise fun lower higher => lower.slug < higher.slug := by
  refine List.pairwise_map.mpr (List.pairwise_filterMap.mpr ?_)
  refine (Sorted.strictly_mergeSort Feature.slug features slugs).imp ?_
  intro lower higher less share own other otherOwn
  obtain ⟨_, _, rfl⟩ := Option.map_eq_some_iff.mp own
  obtain ⟨_, _, rfl⟩ := Option.map_eq_some_iff.mp otherOwn
  exact less

variable (className : String) (left right : List Feature) (leftLevels : LevelsDistinct className left)
  (rightLevels : LevelsDistinct className right)
include leftLevels rightLevels

-- A fragment of the same rows is the same fragment once it is in order.
theorem mem_ordered_of_shareSet (same : shareSet className left ⊆ shareSet className right) (share : Contribution)
    (member : share ∈ (ofFeatures className left).map ordered) : share ∈ (ofFeatures className right).map ordered := by
  obtain ⟨feature, given, fragment, own, rfl⟩ := (mem_ordered_ofFeatures className left share).mp member
  obtain ⟨other, otherGiven, more, otherOwn, shared⟩ := same ⟨feature, given, fragment, own, rfl⟩
  obtain ⟨slug, rows⟩ := Prod.mk.inj shared
  have ordered := Sorted.mergeSort_congr FragmentRow.level fragment more (leftLevels feature given fragment own)
    (rightLevels other otherGiven more otherOwn) (Set.ext_iff.mp rows)
  refine (mem_ordered_ofFeatures className right _).mpr ⟨other, otherGiven, more, otherOwn, ?_⟩
  rw [Contribution.ordered, Contribution.ordered, ordered, slug]

theorem ofFeatures_congr (leftSlugs : (left.map (·.slug)).Nodup) (rightSlugs : (right.map (·.slug)).Nodup)
    (same : shareSet className left = shareSet className right) :
    (ofFeatures className left).map ordered = (ofFeatures className right).map ordered := by
  refine Sorted.eq_of_members Contribution.slug _ _ (strictly_ofFeatures className left leftSlugs)
    (strictly_ofFeatures className right rightSlugs) fun share => ⟨?_, ?_⟩
  · exact mem_ordered_of_shareSet className left right leftLevels rightLevels same.subset share
  · exact mem_ordered_of_shareSet className right left rightLevels leftLevels same.symm.subset share

end Contribution

namespace Catalog

theorem shareSet_contributors (catalog : Catalog) (className : String) :
    shareSet className (catalog.contributors className) = shareSet className catalog.toList := by
  ext share
  constructor
  · rintro ⟨feature, given, own⟩
    exact ⟨feature, (List.mem_filter.mp given).1, own⟩
  · rintro ⟨feature, given, fragment, own, rfl⟩
    exact ⟨feature, List.mem_filter.mpr ⟨given, by simp [own]⟩, fragment, own, rfl⟩

theorem nodup_contributors (catalog : Catalog) (className : String) :
    ((catalog.contributors className).map (·.slug)).Nodup :=
  catalog.nodup_slugs.sublist (List.filter_sublist.map _)

end Catalog

-- Any two lists of features, and any two catalogs, that agree on the shares of a class.
theorem table_of_shares (className : String) (extent : Extent) :
    (∀ left right : List Feature, (left.map (·.slug)).Nodup → (right.map (·.slug)).Nodup →
      LevelsDistinct className left → LevelsDistinct className right →
      shareSet className left = shareSet className right →
      Table.compose className left extent = Table.compose className right extent) ∧
    ∀ left right : Catalog, LevelsDistinct className left.toList → LevelsDistinct className right.toList →
      shareSet className left.toList = shareSet className right.toList →
      Table.composeClass left className extent = Table.composeClass right className extent := by
  have lists : ∀ left right : List Feature, (left.map (·.slug)).Nodup → (right.map (·.slug)).Nodup →
      LevelsDistinct className left → LevelsDistinct className right →
      shareSet className left = shareSet className right →
      Table.compose className left extent = Table.compose className right extent := by
    intro left right leftSlugs rightSlugs leftLevels rightLevels same
    rw [Table.compose, Table.compose, ← Draft.applyAll_ordered, ← Draft.applyAll_ordered _ (Contribution.ofFeatures _ right),
      Contribution.ofFeatures_congr className left right leftLevels rightLevels leftSlugs rightSlugs same]
  refine ⟨lists, fun left right leftLevels rightLevels same => ?_⟩
  have chosen (catalog : Catalog) (levels : LevelsDistinct className catalog.toList) :
      LevelsDistinct className (catalog.contributors className) := fun feature given =>
    levels feature (List.mem_filter.mp given).1
  refine lists _ _ (left.nodup_contributors className) (right.nodup_contributors className) (chosen left leftLevels)
    (chosen right rightLevels) ?_
  rw [left.shareSet_contributors, right.shareSet_contributors, same]

-- Rows and features in another order, another template, and a feature without a fragment.
theorem table_of_rearranged_shares :
    let row (level : Level) (die : String) : FragmentRow := ⟨level, NameMap.ofList [("Die", .scalar (.text die))]⟩
    let feature (slug template : String) (rows : List FragmentRow) : Feature :=
      {slug := slug, template := template, classes := NameMap.ofList [("Bard", {progression := some rows})]}
    let left := [feature "a" "" [row 1 "d6", row 3 "d8"], feature "b" "" [row 2 "d10"]]
    let right := [feature "b" "" [row 2 "d10"], feature "a" "x" [row 3 "d8", row 1 "d6"], {slug := "c"}]
    shareSet "Bard" left = shareSet "Bard" right ∧
      Table.compose "Bard" left {} = Table.compose "Bard" right {} ∧
      ∃ first second : Catalog, first.toList = left ∧ second.toList.Perm right ∧
        Table.composeClass first "Bard" {} = Table.composeClass second "Bard" {} := by
  intro row feature left right
  have levels (features : List Feature) (each : ∀ share ∈ features.filterMap (Contribution.ofFeature? "Bard"),
      (share.fragment.map (·.level)).Nodup) : LevelsDistinct "Bard" features := fun feature given fragment own =>
    each ⟨feature.slug, fragment⟩ (List.mem_filterMap.mpr ⟨feature, given, by simp [Contribution.ofFeature?, own]⟩)
  have within (features others : List Feature) (each : ∀ share ∈ features.filterMap (Contribution.ofFeature? "Bard"),
      ∃ other ∈ others.filterMap (Contribution.ofFeature? "Bard"), share.slug = other.slug ∧
        (∀ row ∈ share.fragment, row ∈ other.fragment) ∧ ∀ row ∈ other.fragment, row ∈ share.fragment) :
      shareSet "Bard" features ⊆ shareSet "Bard" others := by
    rintro _ ⟨feature, given, fragment, own, rfl⟩
    obtain ⟨_, found, slug, forth, back⟩ := each ⟨feature.slug, fragment⟩
      (List.mem_filterMap.mpr ⟨feature, given, by simp [Contribution.ofFeature?, own]⟩)
    obtain ⟨other, listed, share⟩ := List.mem_filterMap.mp found
    obtain ⟨more, otherOwn, rfl⟩ := Option.map_eq_some_iff.mp share
    exact ⟨other, listed, more, otherOwn, Prod.ext slug (Set.ext fun row => ⟨forth row, back row⟩)⟩
  have same := (within left right (by decide +kernel)).antisymm (within right left (by decide +kernel))
  obtain ⟨lists, catalogs⟩ := table_of_shares "Bard" {}
  refine ⟨same, lists left right (by decide) (by decide) (levels left (by decide)) (levels right (by decide)) same, ?_⟩
  let first : Catalog := ⟨NameMap.ofList (left.map fun feature => (feature.slug, feature)), by decide +kernel⟩
  let second : Catalog := ⟨NameMap.ofList (right.map fun feature => (feature.slug, feature)), by decide +kernel⟩
  have firstHolds : first.toList = left := by decide +kernel
  have secondHolds : second.toList = [feature "a" "x" [row 3 "d8", row 1 "d6"], feature "b" "" [row 2 "d10"], {slug := "c"}] := by
    decide +kernel
  have permuted : second.toList.Perm right := by rw [secondHolds]; exact .swap ..
  refine ⟨first, second, firstHolds, permuted, catalogs first second ?_ ?_ ?_⟩
  · exact levels _ (by rw [firstHolds]; decide)
  · exact levels _ (by rw [secondHolds]; decide)
  · rw [firstHolds, secondHolds]
    exact (within _ _ (by decide +kernel)).antisymm (within _ _ (by decide +kernel))

end ClassProgression
