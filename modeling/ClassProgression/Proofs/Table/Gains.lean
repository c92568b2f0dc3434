import ClassProgression.Proofs.Table.Halves
import ClassProgression.Proofs.Table.Independence

namespace ClassProgression

-- Some items in ascending order of their keys. Those of one key keep the order given.
structure StableOrder [DecidableEq κ] [LE κ] (key : α → κ) (given ordered : List α) : Prop where
  ascending : ordered.Pairwise fun left right => key left ≤ key right
  kept : ∀ value, ordered.filter (fun item => key item = value) = given.filter fun item => key item = value

def FragmentRow.gains (row : FragmentRow) : List String :=
  [featureColumn, featuresColumn].flatMap fun column =>
    match row.cells.get? column with
    | some (.scalar value) => [value.display]
    | some (.list items) => items
    | _ => []

section Pruning

-- A fragment without the rows outside the table and without groups where names are expected.

def NameMap.filter (keep : String → α → Bool) (m : NameMap α) : NameMap α :=
  ⟨m.entries.filter fun entry => keep entry.1 entry.2, m.ascending.sublist List.filter_sublist⟩

def Cell.nameless (column : String) (cell : Cell) : Bool :=
  match cell with
  | .group _ => column == featureColumn || column == featuresColumn
  | _ => false

def FragmentRow.pruned? (extent : Extent) (row : FragmentRow) : Option FragmentRow :=
  if Landing.InTable extent row.level then
    some {row with cells := row.cells.filter fun column cell => !cell.nameless column}
  else none

def Binding.pruned (extent : Extent) (binding : Binding) : Binding :=
  {binding with progression := binding.progression.map (List.filterMap (FragmentRow.pruned? extent))}

def Feature.pruned (extent : Extent) (feature : Feature) : Feature :=
  {feature with classes := feature.classes.map (Binding.pruned extent)}

end Pruning

namespace StableOrder

variable [DecidableEq κ] [LE κ] (key : α → κ)

theorem filterMap (given ordered : List α) (stable : StableOrder key given ordered) (other : β → κ)
    (f : α → Option β) (same : ∀ item result, f item = some result → other result = key item) :
    StableOrder other (given.filterMap f) (ordered.filterMap f) where
  ascending := by
    refine List.pairwise_filterMap.mpr (stable.ascending.imp fun {left right} less first made second also => ?_)
    rwa [same left first made, same right second also]
  kept value := by
    have picked (items : List α) : (items.filterMap f).filter (fun result => other result = value) =
        (items.filter fun item => key item = value).filterMap f := by
      rw [List.filter_filterMap, List.filterMap_filter]
      refine congrArg (items.filterMap ·) (funext fun item => ?_)
      cases made : f item with
      | none => simp
      | some result => simp [Option.filter, same item result made]
    rw [picked, picked, stable.kept]

variable [Std.IsLinearOrder κ]

-- A rearrangement in which every ascending part of the given items is left as it was.
theorem of_sublists (given ordered : List α) (permuted : ordered.Perm given)
    (ascending : ordered.Pairwise fun left right => key left ≤ key right)
    (preserved : ∀ part : List α, part.Pairwise (fun left right => key left ≤ key right) → part.Sublist given →
      part.Sublist ordered) : StableOrder key given ordered where
  ascending := ascending
  kept value := by
    have alike : (given.filter fun item => key item = value).Pairwise fun left right => key left ≤ key right := by
      refine List.pairwise_filter.mpr (List.pairwise_of_forall fun left right inLeft inRight => ?_)
      rw [of_decide_eq_true inLeft, of_decide_eq_true inRight]
      exact Std.le_refl value
    have picked := (preserved _ alike List.filter_sublist).filter fun item => key item = value
    simp only [List.filter_filter, Bool.and_self] at picked
    exact (picked.eq_of_length (permuted.filter _).length_eq.symm).symm

section Uniqueness

omit [LE κ] [Std.IsLinearOrder κ] in
theorem mem_of_kept (left right : List α) (same : ∀ value, left.filter (fun item => key item = value) =
    right.filter fun item => key item = value) (item : α) (member : item ∈ left) : item ∈ right := by
  have kept : item ∈ left.filter fun other => key other = key item := List.mem_filter.mpr ⟨member, by simp⟩
  rw [same] at kept
  exact (List.mem_filter.mp kept).1

omit [DecidableEq κ] in
theorem head_le (head : α) (rest : List α)
    (ascending : (head :: rest).Pairwise fun lower higher => key lower ≤ key higher) (item : α)
    (member : item ∈ head :: rest) : key head ≤ key item := by
  rcases List.mem_cons.mp member with rfl | later
  · exact Std.le_refl _
  · exact (List.pairwise_cons.mp ascending).1 item later

-- The head of each list stands in the other one too, behind a key that is no greater.
theorem eq_of_kept (left right : List α) (ascending : left.Pairwise fun lower higher => key lower ≤ key higher)
    (otherAscending : right.Pairwise fun lower higher => key lower ≤ key higher)
    (same : ∀ value, left.filter (fun item => key item = value) = right.filter fun item => key item = value) :
    left = right := by
  induction left generalizing right with
  | nil =>
      cases right with
      | nil => rfl
      | cons other more => cases mem_of_kept key _ [] (fun value => (same value).symm) other List.mem_cons_self
  | cons head rest ih =>
      cases right with
      | nil => cases mem_of_kept key _ [] same head List.mem_cons_self
      | cons other more =>
          have inLeft := mem_of_kept key _ _ (fun value => (same value).symm) other List.mem_cons_self
          have inRight := mem_of_kept key _ _ same head List.mem_cons_self
          have equal : key other = key head := Std.le_antisymm
            (head_le key other more otherAscending head inRight) (head_le key head rest ascending other inLeft)
          have heads := same (key head)
          rw [List.filter_cons_of_pos (by simp), List.filter_cons_of_pos (by simp [equal])] at heads
          obtain ⟨rfl, -⟩ := List.cons.inj heads
          refine congrArg (head :: ·) (ih more ascending.tail otherAscending.tail fun value => ?_)
          have filtered := same value
          by_cases here : key head = value
          · rw [List.filter_cons_of_pos (by simp [here]), List.filter_cons_of_pos (by simp [here])] at filtered
            exact (List.cons.inj filtered).2
          · rwa [List.filter_cons_of_neg (by simp [here]), List.filter_cons_of_neg (by simp [here])] at filtered

theorem unique (given left right : List α) (first : StableOrder key given left) (second : StableOrder key given right) :
    left = right :=
  eq_of_kept key left right first.ascending second.ascending fun value => (first.kept value).trans (second.kept value).symm

end Uniqueness

variable [DecidableLE κ]

theorem mergeSort (given : List α) :
    StableOrder key given (given.mergeSort fun left right => decide (key left ≤ key right)) :=
  of_sublists key given _ (List.mergeSort_perm given _) (Sorted.ascending_mergeSort key given) fun _ ascending part =>
    List.sublist_mergeSort (Sorted.transitive key) (Sorted.total key) (ascending.imp decide_eq_true) part

-- The same order by a procedure that can be run within a proof.
theorem insertionSort (given : List α) :
    StableOrder key given (given.insertionSort fun left right => key left ≤ key right) := by
  have transitive : IsTrans α fun left right => key left ≤ key right := ⟨fun _ _ _ => Std.le_trans⟩
  have total : Std.Total fun left right : α => key left ≤ key right := ⟨fun _ _ => Std.le_total⟩
  exact of_sublists key given _ (List.perm_insertionSort _ given) (List.pairwise_insertionSort _ given) fun _ =>
    List.sublist_insertionSort

end StableOrder

theorem NameMap.flatMap_pair (m : NameMap α) (first second : String) (less : first < second) (items : α → List β) :
    (m.entries.flatMap fun entry => if entry.1 = first ∨ entry.1 = second then items entry.2 else []) =
      ((m.get? first).map items).getD [] ++ ((m.get? second).map items).getD [] := by
  have general : ∀ entries : List (String × α), Ascending entries →
      (entries.flatMap fun entry => if entry.1 = first ∨ entry.1 = second then items entry.2 else []) =
        ((lookup first entries).map items).getD [] ++ ((lookup second entries).map items).getD [] := by
    intro entries ascending
    induction entries with
    | nil => rfl
    | cons head rest ih =>
        have ⟨above, tail⟩ := List.pairwise_cons.mp ascending
        rw [List.flatMap_cons, ih tail]
        by_cases isFirst : head.1 = first
        · have noFirst : lookup first rest = none := isFirst ▸ lookup_rest head rest above
          have different : second ≠ head.1 := fun same => String.lt_irrefl _ (isFirst ▸ same ▸ less)
          simp [lookup, isFirst, noFirst, isFirst ▸ different]
        · by_cases isSecond : head.1 = second
          · have noSecond : lookup second rest = none := isSecond ▸ lookup_rest head rest above
            have noFirst : lookup first rest = none := (lookup_eq_none _ _).mpr fun entry member same =>
              String.lt_asymm less (same ▸ isSecond ▸ above entry member)
            simp [lookup, isSecond, noFirst, noSecond, ne_of_lt less]
          · simp [lookup, isFirst, isSecond, Ne.symm isFirst, Ne.symm isSecond]
  exact general m.entries m.ascending

theorem FragmentRow.gains_eq (row : FragmentRow) : row.gains = row.cells.entries.flatMap fun entry =>
    if entry.1 = featureColumn ∨ entry.1 = featuresColumn then entry.2.featureNames else [] := by
  rw [NameMap.flatMap_pair row.cells featureColumn featuresColumn (by decide), gains, List.flatMap_cons,
    List.flatMap_singleton]
  have names (held : Option Cell) : (match held with
      | some (.scalar value) => [value.display]
      | some (.list items) => items
      | _ => []) = (held.map Cell.featureNames).getD [] := by
    rcases held with _ | ⟨_ | _ | _⟩ <;> rfl
  rw [names, names]

namespace Step

section Gained

variable (extent : Extent) (level : Level) (inside : 1 ≤ level.toNat ∧ level.toNat ≤ extent.maxLevel.toNat)
include inside

-- A row's names are gained at the level where it lands, and nowhere else.
theorem gained_ofRow (given : FragmentRow) : (ofRow extent given).flatMap (gained level) =
    if Landing.effective extent given.level = level.toNat then given.gains else [] := by
  unfold ofRow
  rw [Extent.landing?_eq]
  by_cases here : Landing.effective extent given.level = level.toNat
  · have inTable : Landing.InTable extent given.level := by rw [Landing.InTable, here]; exact inside
    have landing : UInt32.ofNat (Landing.effective extent given.level) = level := by rw [here, UInt32.ofNat_toNat]
    rw [if_pos here, given.gains_eq]
    simp only [if_pos inTable, landing, List.flatMap_map, gained, and_true]
  · rw [if_neg here]
    by_cases inTable : Landing.InTable extent given.level
    · have elsewhere : level ≠ UInt32.ofNat (Landing.effective extent given.level) := fun same =>
        here (by rw [same, Landing.toNat_effective extent given.level inTable])
      simp [if_pos inTable, List.flatMap_map, gained, elsewhere]
    · simp [if_neg inTable, gained]

end Gained

theorem ofShares_ofFeatures (className : String) (features : List Feature) (extent : Extent) :
    ofShares extent (Contribution.ofFeatures className features) =
      (features.mergeSort fun left right => decide (left.slug ≤ right.slug)).flatMap fun feature =>
        ofFragment extent ((feature.progression? className).getD []) := by
  rw [ofShares, Contribution.ofFeatures, List.filterMap_eq_flatMap_toList, List.flatMap_assoc]
  refine congrArg (List.flatMap · _) (funext fun feature => ?_)
  unfold Contribution.ofFeature?
  cases feature.progression? className with
  | none =>
      rw [Option.getD_none, ofFragment, List.mergeSort_nil]
      rfl
  | some fragment => exact List.flatMap_singleton _ _

def idle : Step → Bool
  | .dropped _ => true
  | .placed _ column cell => cell.nameless column

end Step

namespace Row

theorem take_idle (row : Row) (step : Step) (idle : step.idle = true) : row.take step = row := by
  cases step with
  | dropped level => rfl
  | placed landing column cell =>
      cases cell with
      | scalar value => cases idle
      | list items => cases idle
      | group members =>
          have named : column = featureColumn ∨ column = featuresColumn := by
            simpa [Step.idle, Cell.nameless] using idle
          have notLevel : column ≠ levelColumn := by
            rintro rfl
            simp [levelColumn, featureColumn, featuresColumn] at named
          rw [take, place, if_neg notLevel, if_pos named]
          split
          · exact congrArg (fun features => {row with features := features}) (List.append_nil row.features)
          · rfl

theorem foldl_take_busy (row : Row) (steps : List Step) :
    (steps.filter fun step => !step.idle).foldl take row = steps.foldl take row := by
  induction steps generalizing row with
  | nil => rfl
  | cons step rest ih =>
      cases idle : step.idle with
      | true => rw [List.filter_cons_of_neg (by simp [idle]), List.foldl_cons, take_idle row step idle, ih]
      | false => rw [List.filter_cons_of_pos (by simp [idle]), List.foldl_cons, List.foldl_cons, ih]

end Row

-- A row's names are what the steps bring to its level.
theorem Table.features_compose (className : String) (features : List Feature) (extent : Extent) (row : Row)
    (member : row ∈ (compose className features extent).rows) : row.features =
      (Step.ofShares extent (Contribution.ofFeatures className features)).flatMap (Step.gained row.level) := by
  have rows := Draft.finish_rows extent (Contribution.ofFeatures className features)
  obtain ⟨start, inBlank, rfl⟩ := List.mem_map.mp (rows ▸ member)
  obtain ⟨index, _, rfl⟩ := List.mem_map.mp inBlank
  simp

section Pruned

variable (extent : Extent)

theorem Step.ofRow_pruned (row : FragmentRow) : (row.pruned? extent).toList.flatMap (ofRow extent) =
    (ofRow extent row).filter fun step => !step.idle := by
  unfold FragmentRow.pruned?
  by_cases inTable : Landing.InTable extent row.level
  · rw [if_pos inTable]
    simp only [Option.toList_some, List.flatMap_singleton, ofRow, Extent.landing?_eq, if_pos inTable, List.filter_map]
    rfl
  · simp [ofRow, Extent.landing?_eq, if_neg inTable, idle]

theorem Step.ofFragment_pruned (fragment : List FragmentRow) :
    ofFragment extent (fragment.filterMap (FragmentRow.pruned? extent)) =
      (ofFragment extent fragment).filter fun step => !step.idle := by
  have levels (row result : FragmentRow) (kept : row.pruned? extent = some result) : result.level = row.level := by
    obtain ⟨_, same⟩ := Option.ite_none_right_eq_some.mp kept
    rw [← Option.some.inj same]
  have kept := (StableOrder.mergeSort FragmentRow.level fragment).filterMap _ _ _ FragmentRow.level
    (FragmentRow.pruned? extent) levels
  have rows := (StableOrder.mergeSort FragmentRow.level _).unique _ _ _ _ kept
  rw [ofFragment, rows, List.filterMap_eq_flatMap_toList, List.flatMap_assoc, ofFragment, List.filter_flatMap]
  simp only [ofRow_pruned]

theorem Feature.progression?_pruned (feature : Feature) (className : String) :
    (feature.pruned extent).progression? className =
      (feature.progression? className).map (List.filterMap (FragmentRow.pruned? extent)) := by
  cases held : feature.classes.get? className <;> simp [progression?, binding?, pruned, Binding.pruned, held]

theorem Step.ofShares_pruned (className : String) (features : List Feature) :
    ofShares extent (Contribution.ofFeatures className (features.map (Feature.pruned extent))) =
      (ofShares extent (Contribution.ofFeatures className features)).filter fun step => !step.idle := by
  have sorted := List.map_mergeSort (l := features) (f := Feature.pruned extent)
    (r := fun left right => decide (left.slug ≤ right.slug)) (s := fun left right => decide (left.slug ≤ right.slug))
    fun _ _ _ _ => rfl
  rw [ofShares_ofFeatures, ofShares_ofFeatures, ← sorted, List.flatMap_map, List.filter_flatMap]
  refine congrArg (List.flatMap · _) (funext fun feature => ?_)
  rw [← ofFragment_pruned, feature.progression?_pruned extent]
  cases feature.progression? className <;> rfl

theorem Table.compose_pruned (className : String) (features : List Feature) :
    compose className (features.map (Feature.pruned extent)) extent = compose className features extent := by
  have draft : (Draft.blank extent).applyAll (Contribution.ofFeatures className (features.map (Feature.pruned extent))) =
      (Draft.blank extent).applyAll (Contribution.ofFeatures className features) := by
    rw [Draft.applyAll_rows, Draft.applyAll_rows]
    refine congrArg (fun rows => Draft.mk extent rows) (List.map_congr_left fun row _ => ?_)
    have steps := Step.ofShares_pruned extent className features
    rw [show (Draft.blank extent).extent = extent from rfl, steps, Row.foldl_take_busy]
  rw [compose, draft, compose]

end Pruned

-- Any class table, in which each row's features are gained at its own level.
theorem features_by_level (className : String) (features : List Feature) (extent : Extent) :
    let table := Table.compose className features extent
    table.rows.map (·.level.toNat) = List.range' 1 extent.maxLevel.toNat ∧
    (∀ (ordered : List Feature) (arranged : List FragmentRow → List FragmentRow),
      StableOrder Feature.slug features ordered →
      (∀ fragment, StableOrder FragmentRow.level fragment (arranged fragment)) →
      ∀ row ∈ table.rows, row.features = ordered.flatMap fun feature =>
        (arranged ((feature.progression? className).getD [])).flatMap fun given =>
          if Landing.effective extent given.level = row.level.toNat then given.gains else []) ∧
    Table.compose className (features.map (Feature.pruned extent)) extent = table := by
  intro table
  have regular := Draft.applyAll_regular _ _ (Contribution.ofFeatures className features) (Draft.blank_regular extent)
  have levels := regular.align.levels
  refine ⟨levels, ?_, Table.compose_pruned extent className features⟩
  intro ordered arranged inOrder inLevels row member
  have bounds := List.mem_range'_1.mp (levels ▸ List.mem_map_of_mem member)
  have inside : 1 ≤ row.level.toNat ∧ row.level.toNat ≤ extent.maxLevel.toNat := by omega
  have slugs := (StableOrder.mergeSort Feature.slug features).unique _ _ _ _ inOrder
  have sorted (fragment : List FragmentRow) :=
    (StableOrder.mergeSort FragmentRow.level fragment).unique _ _ _ _ (inLevels fragment)
  rw [Table.features_compose className features extent row member, Step.ofShares_ofFeatures, slugs, List.flatMap_assoc]
  refine congrArg (List.flatMap · _) (funext fun feature => ?_)
  rw [Step.ofFragment, sorted, List.flatMap_assoc]
  simp only [Step.gained_ofRow extent row.level inside]

-- Two features out of order, with a row too high and a group that names nothing.
theorem bard_gains :
    let feature (slug : String) (rows : List FragmentRow) : Feature :=
      {slug := slug, classes := NameMap.ofList [("Bard", {progression := some rows})]}
    let row (level : Level) (cells : List (String × Cell)) : FragmentRow := ⟨level, NameMap.ofList cells⟩
    let song := [row 3 [("Feature", .scalar (.text "Song"))],
      row 1 [("Features", .list ["Hum", "Rest"]), ("Feature", .scalar (.integer 7))]]
    let lore := row 1 [("Features", .list ["Lore"])]
    let high := row 9 [("Features", .list ["Epic"]), ("Die", .scalar (.text "d12"))]
    let grouped := row 1 [("Feature", .group (NameMap.ofList [("x", none)])), ("Features", .list ["Lore"])]
    let extent : Extent := {maxLevel := 4, offset := 1}
    let table := Table.compose "Bard" [feature "song" (high :: song), feature "lore" [grouped]] extent
    (∀ row ∈ table.rows, row.level = 2 → row.features = ["Lore", "7", "Hum", "Rest"]) ∧
    Table.compose "Bard" [feature "song" song, feature "lore" [lore]] extent = table := by
  intro feature row song lore high grouped extent table
  obtain ⟨_, gained, pruned⟩ := features_by_level "Bard" [feature "song" (high :: song), feature "lore" [grouped]] extent
  refine ⟨fun row member level => ?_, ?_⟩
  · rw [gained _ _ (.insertionSort _ _) (fun _ => .insertionSort _ _) row member, level]
    decide +kernel
  · have left : [feature "song" (high :: song), feature "lore" [grouped]].map (Feature.pruned extent) =
        [feature "song" song, feature "lore" [lore]] := by decide +kernel
    rw [← left]
    exact pruned

end ClassProgression
