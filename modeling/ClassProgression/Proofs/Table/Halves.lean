import ClassProgression.Proofs.Table.MergeResult
import ClassProgression.Proofs.Table.Regular

namespace ClassProgression

namespace Sorted

variable (pick : α → Bool) (le : α → α → Bool)

theorem span_append (before after : List α) (stop : ∀ a ∈ after, pick a = false) :
    (before ++ after).takeWhile pick = before.takeWhile pick ∧
      (before ++ after).dropWhile pick = before.dropWhile pick ++ after := by
  induction before with
  | nil =>
      cases after with
      | nil => exact ⟨rfl, rfl⟩
      | cons next rest => simp [stop next List.mem_cons_self]
  | cons head rest ih =>
      cases picked : pick head with
      | true => simp [picked, ih.1, ih.2]
      | false => simp [picked]

variable (transitive : ∀ a b c, le a b → le b c → le a c) (total : ∀ a b, le a b || le b a)
include transitive total

theorem mergeSort_head (head : α) (rest : List α) : (head :: rest).mergeSort le =
    (rest.mergeSort le).takeWhile (!le head ·) ++ head :: (rest.mergeSort le).dropWhile (!le head ·) := by
  obtain ⟨before, after, sorted, parts, below⟩ := List.mergeSort_cons transitive total head rest
  have ascending := List.pairwise_mergeSort transitive total (head :: rest)
  rw [sorted] at ascending
  have above := (List.pairwise_cons.mp (List.pairwise_append.mp ascending).2.1).1
  obtain ⟨taken, dropped⟩ := span_append (!le head ·) before after fun next member => by simp [above next member]
  rw [sorted, parts, taken, dropped, List.takeWhile_eq_self_iff.mpr below, List.dropWhile_eq_nil_iff.mpr below,
    List.nil_append]

theorem mergeSort_append (lower upper : List α) (apart : ∀ low ∈ lower, ∀ up ∈ upper, le low up) :
    (lower ++ upper).mergeSort le = lower.mergeSort le ++ upper.mergeSort le := by
  induction lower with
  | nil => simp
  | cons head rest ih =>
      have above : ∀ up ∈ upper.mergeSort le, (!le head up) = false := fun up member => by
        simp [apart head List.mem_cons_self up (List.mem_mergeSort.mp member)]
      obtain ⟨taken, dropped⟩ := span_append (!le head ·) (rest.mergeSort le) (upper.mergeSort le) above
      rw [List.cons_append, mergeSort_head le transitive total, ih fun low member => apart low (.tail head member),
        taken, dropped, mergeSort_head le transitive total head rest, List.append_assoc, List.cons_append]

end Sorted

namespace Contribution

theorem ofFeatures_append (className : String) (lower upper : List Feature)
    (apart : ∀ low ∈ lower, ∀ up ∈ upper, low.slug < up.slug) :
    ofFeatures className (lower ++ upper) = ofFeatures className lower ++ ofFeatures className upper := by
  unfold ofFeatures
  rw [Sorted.mergeSort_append, List.filterMap_append]
  · intro a b c first second
    exact decide_eq_true (String.le_trans (of_decide_eq_true first) (of_decide_eq_true second))
  · intro a b
    simpa using String.le_total a.slug b.slug
  · intro low inLower up inUpper
    exact decide_eq_true (String.not_lt.mp (String.lt_asymm (apart low inLower up inUpper)))

end Contribution

namespace Landing

@[simp]
theorem writers_append (level : Nat) (earlier later : List Landing) :
    writers level (earlier ++ later) = writers level earlier ++ writers level later := List.filter_append ..

-- Where nothing but lists has landed, every row holds the entries that are its own.
theorem drafted_of_lists (level : Nat) (landings : List Landing) (inhabited : landings ≠ [])
    (lists : ∀ landing ∈ landings, landing.isList = true) :
    drafted level landings = some (.list ((writers level landings).flatMap items)) := by
  have opens : opensWithList landings = true := by
    cases landings with
    | nil => exact absurd rfl inhabited
    | cons head rest => exact lists head List.mem_cons_self
  have written : ∀ landing ∈ writers level landings, landing.isList = true := fun landing member =>
    lists landing (List.mem_filter.mp member).1
  have run : listRun level landings = (writers level landings).flatMap items := by
    rw [listRun, List.rtakeWhile_eq_self_iff.mpr written]
  rw [drafted, ← run]
  cases last : lastCell? level landings with
  | none =>
      rw [listRun_eq_nil level landings (by simp [last]), if_pos opens]
  | some cell =>
      obtain ⟨landing, found, rfl⟩ := Option.map_eq_some_iff.mp last
      have list := written landing (List.mem_of_getLast? found)
      unfold isList at list
      split at list
      · rename_i held
        rw [held]
      · cases list

end Landing

namespace Draft

def finishedRow (extent : Extent) (shares : List Contribution) (row : Row) : Row :=
  Alignment.alignRow (Alignment.plan ((blank extent).applyAll shares).rows)
    ((Step.ofShares extent shares).foldl Row.take row)

variable (extent : Extent) (shares : List Contribution)

theorem finish_rows : ((blank extent).applyAll shares).finish.rows =
    (blank extent).rows.map (finishedRow extent shares) := by
  have rows := congrArg Draft.rows (applyAll_rows (blank extent) shares)
  exact (congrArg (List.map _) rows).trans List.map_map

@[simp]
theorem level_finishedRow (row : Row) : (finishedRow extent shares row).level = row.level :=
  row.level_foldl_take _

@[simp]
theorem features_finishedRow (row : Row) : (finishedRow extent shares row).features =
    row.features ++ (Step.ofShares extent shares).flatMap (Step.gained row.level) :=
  row.features_foldl_take _

variable (row : Row) (member : row ∈ (blank extent).rows)
include member

theorem mem_applyAll : (Step.ofShares extent shares).foldl Row.take row ∈ ((blank extent).applyAll shares).rows := by
  rw [applyAll_rows]
  exact List.mem_map_of_mem member

variable (column : String)

theorem get?_finishedRow_reserved (reserved : column ∈ [levelColumn, featureColumn, featuresColumn]) :
    (finishedRow extent shares row).columns.get? column = none := by
  have regular := (applyAll_regular _ _ shares (blank_regular extent)).align
  have aligned : finishedRow extent shares row ∈ Alignment.align ((blank extent).applyAll shares).rows :=
    List.mem_map_of_mem (mem_applyAll extent shares row member)
  exact (NameMap.not_mem_keys _ column).mp fun own => regular.ordinary _ aligned column own reserved

variable (ordinary : column ∉ [levelColumn, featureColumn, featuresColumn])
include ordinary

theorem get?_taken : ((Step.ofShares extent shares).foldl Row.take row).columns.get? column =
    Landing.slot row.level.toNat (Landing.ofShares extent column shares) := by
  rw [get?_applyAll extent shares column ordinary _ (mem_applyAll extent shares row member), Row.level_foldl_take]

theorem get?_finishedRow : (finishedRow extent shares row).columns.get? column =
    (Landing.slot row.level.toNat (Landing.ofShares extent column shares)).map
      (Alignment.alignCell (Alignment.groupKeys? ((blank extent).applyAll shares).rows column)) := by
  have own := mem_applyAll extent shares row member
  have holds := mem_columns_applyAll extent shares column ordinary
  rw [finishedRow, Alignment.get?_alignRow, Row.cell?, get?_taken extent shares row member column ordinary]
  by_cases landed : Landing.ofShares extent column shares = []
  · rw [landed, if_neg]
    · rfl
    · intro listed
      obtain ⟨other, inRows, held⟩ := (Alignment.mem_columnNames _ column).mp listed
      exact (holds other inRows).mp held landed
  · rw [if_pos ((Alignment.mem_columnNames _ column).mpr ⟨_, own, (holds _ own).mpr landed⟩),
      Landing.slot_of_ne_nil _ _ landed]
    rfl

theorem get?_finishedRow_of_nil (untouched : Landing.ofShares extent column shares = []) :
    (finishedRow extent shares row).columns.get? column = none := by
  rw [get?_finishedRow extent shares row member column ordinary, untouched]
  rfl

-- The same cells in a column make the same finished column, whatever else the run brings.
theorem get?_finishedRow_congr (others : List Contribution)
    (same : Landing.ofShares extent column shares = Landing.ofShares extent column others) :
    (finishedRow extent shares row).columns.get? column = (finishedRow extent others row).columns.get? column := by
  have keys : Alignment.groupKeys? ((blank extent).applyAll shares).rows column =
      Alignment.groupKeys? ((blank extent).applyAll others).rows column := by
    apply Alignment.groupKeys?_congr
    rw [applyAll_rows, applyAll_rows, List.map_map, List.map_map]
    refine List.map_congr_left fun other inBlank => congrArg Option.join ?_
    exact (get?_taken extent shares other inBlank column ordinary).trans
      (same ▸ (get?_taken extent others other inBlank column ordinary).symm)
  rw [get?_finishedRow extent shares row member column ordinary,
    get?_finishedRow extent others row member column ordinary, same, keys]

theorem get?_finishedRow_of_lists (inhabited : Landing.ofShares extent column shares ≠ [])
    (lists : ∀ landing ∈ Landing.ofShares extent column shares, landing.isList = true) :
    (finishedRow extent shares row).columns.get? column = some (some (.list
      ((Landing.writers row.level.toNat (Landing.ofShares extent column shares)).flatMap Landing.items))) := by
  rw [get?_finishedRow extent shares row member column ordinary, Landing.slot_of_ne_nil _ _ inhabited,
    Landing.drafted_of_lists _ _ inhabited lists, Option.map_some, Alignment.alignCell_list]

end Draft

-- What two runs leave in a row goes together to what one run after the other leaves there.
theorem Draft.combine_finishedRow (extent : Extent) (lower upper : List Contribution)
    (listed : ∀ column, column ∉ [levelColumn, featureColumn, featuresColumn] →
      Landing.ofShares extent column lower ≠ [] → Landing.ofShares extent column upper ≠ [] →
      ∀ landing ∈ Landing.ofShares extent column lower ++ Landing.ofShares extent column upper, landing.isList = true)
    (row : Row) (member : row ∈ (blank extent).rows) :
    (finishedRow extent lower row).combine (finishedRow extent upper row) =
      .ok (finishedRow extent (lower ++ upper) row) := by
  have landings (column : String) : Landing.ofShares extent column (lower ++ upper) =
      Landing.ofShares extent column lower ++ Landing.ofShares extent column upper := List.flatMap_append
  refine (Row.combine_eq_ok _ _ _).mpr ⟨?_, ?_, (NameMap.absorb_eq_ok _ _ _ _).mpr fun column => ?_⟩
  · rw [level_finishedRow, level_finishedRow]
  · have bare : row.features = [] := by
      obtain ⟨index, _, rfl⟩ := List.mem_map.mp member
      rfl
    have steps : Step.ofShares extent (lower ++ upper) = Step.ofShares extent lower ++ Step.ofShares extent upper :=
      List.flatMap_append
    rw [features_finishedRow, features_finishedRow, features_finishedRow, bare, steps, List.flatMap_append]
    rfl
  · by_cases reserved : column ∈ [levelColumn, featureColumn, featuresColumn]
    · rw [get?_finishedRow_reserved extent lower row member column reserved,
        get?_finishedRow_reserved extent upper row member column reserved,
        get?_finishedRow_reserved extent (lower ++ upper) row member column reserved]
      rfl
    · by_cases noneLower : Landing.ofShares extent column lower = []
      · rw [get?_finishedRow_of_nil extent lower row member column reserved noneLower,
          get?_finishedRow_congr extent (lower ++ upper) row member column reserved upper
            (by rw [landings, noneLower, List.nil_append])]
        cases (finishedRow extent upper row).columns.get? column <;> rfl
      · by_cases noneUpper : Landing.ofShares extent column upper = []
        · rw [get?_finishedRow_of_nil extent upper row member column reserved noneUpper, NameMap.absorbAt_none,
            get?_finishedRow_congr extent (lower ++ upper) row member column reserved lower
              (by rw [landings, noneUpper, List.append_nil])]
        · have lists := listed column reserved noneLower noneUpper
          rw [get?_finishedRow_of_lists extent lower row member column reserved noneLower
              fun landing given => lists landing (List.mem_append_left _ given),
            get?_finishedRow_of_lists extent upper row member column reserved noneUpper
              fun landing given => lists landing (List.mem_append_right _ given),
            get?_finishedRow_of_lists extent (lower ++ upper) row member column reserved
              (by rw [landings]; exact List.append_ne_nil_of_left_ne_nil noneLower _)
              (by rw [landings]; exact lists),
            landings, Landing.writers_append, List.flatMap_append]
          rfl

namespace Table

theorem mergeRow_past (incoming : Row) (before after : List Row)
    (lower : ∀ other ∈ before, other.level < incoming.level) :
    mergeRow incoming (before ++ after) = (mergeRow incoming after).map (before ++ ·) := by
  induction before with
  | nil =>
      rw [List.nil_append]
      cases mergeRow incoming after <;> rfl
  | cons head rest ih =>
      have below := lower head List.mem_cons_self
      rw [List.cons_append, mergeRow, if_neg (UInt32.lt_asymm below), if_neg (UInt32.ne_of_lt below).symm,
        ih fun other member => lower other (.tail head member)]
      cases mergeRow incoming after <;> rfl

theorem mergeRow_joins (incoming row joined : Row) (before after : List Row)
    (lower : ∀ other ∈ before, other.level < incoming.level) (same : incoming.level = row.level)
    (combined : row.combine incoming = .ok joined) :
    mergeRow incoming (before ++ row :: after) = .ok (before ++ joined :: after) := by
  rw [mergeRow_past _ _ _ lower, mergeRow, if_neg (by rw [same]; exact UInt32.lt_irrefl _), if_pos same, combined]
  rfl

theorem mergeRows_ascending (rows : List Row)
    (ascending : rows.Pairwise fun lower higher => lower.level < higher.level) : mergeRows rows = .ok rows := by
  induction rows using List.reverseRecOn with
  | nil => rfl
  | append_singleton earlier last ih =>
      obtain ⟨before, _, across⟩ := List.pairwise_append.mp ascending
      have past := mergeRow_past last earlier [] fun other member => across other member last List.mem_cons_self
      rw [mergeRows_concat, ih before]
      rwa [List.append_nil] at past

-- Two rows for each level, the first ones all before the second ones.
theorem mergeRows_rowwise (rows : List Row) (first second joined : Row → Row)
    (ascending : rows.Pairwise fun lower higher => lower.level < higher.level)
    (firstLevel : ∀ row, (first row).level = row.level) (secondLevel : ∀ row, (second row).level = row.level)
    (combined : ∀ row ∈ rows, (first row).combine (second row) = .ok (joined row)) :
    mergeRows (rows.map first ++ rows.map second) = .ok (rows.map joined) := by
  -- The rows before have been joined, the others are as they were.
  have onward : ∀ after before, rows = before ++ after →
      (after.map second).foldlM (fun merged row => mergeRow row merged) (before.map joined ++ after.map first) =
        .ok (rows.map joined) := by
    intro after
    induction after with
    | nil =>
        rintro before rfl
        simp only [List.map_nil, List.append_nil]
        rfl
    | cons row rest ih =>
        intro before parts
        have inRows : row ∈ rows := by simp [parts]
        have below : ∀ other ∈ before.map joined, other.level < (second row).level := by
          intro other member
          obtain ⟨origin, inBefore, rfl⟩ := List.mem_map.mp member
          have earlier : origin ∈ rows := parts ▸ List.mem_append_left _ inBefore
          rw [((Row.combine_eq_ok _ _ _).mp (combined origin earlier)).1, firstLevel, secondLevel]
          rw [parts] at ascending
          exact (List.pairwise_append.mp ascending).2.2 origin inBefore row List.mem_cons_self
        have same := (secondLevel row).trans (firstLevel row).symm
        have stepped := mergeRow_joins (second row) (first row) (joined row) (before.map joined) (rest.map first)
          below same (combined row inRows)
        rw [List.map_cons, List.map_cons, List.foldlM_cons, stepped]
        have next := ih (before ++ [row]) (by simp [parts])
        rwa [List.map_append, List.append_assoc] at next
  have start : mergeRows (rows.map first) = .ok (rows.map first) := by
    refine mergeRows_ascending _ (List.pairwise_map.mpr (ascending.imp fun less => ?_))
    rwa [firstLevel, firstLevel]
  unfold mergeRows at start ⊢
  rw [List.foldlM_append, start]
  exact onward rows [] rfl

end Table

-- Some feature of a list puts the cell into the column, and inside the table.
def Puts (className : String) (extent : Extent) (features : List Feature) (column : String) (cell : Cell) : Prop :=
  ∃ feature ∈ features, ∃ fragment, feature.progression? className = some fragment ∧
    ∃ row ∈ fragment, Landing.InTable extent row.level ∧ row.cells.get? column = some cell

theorem Puts.of_landing (className : String) (extent : Extent) (features : List Feature) (column : String)
    (landing : Landing)
    (landed : landing ∈ Landing.ofShares extent column (Contribution.ofFeatures className features)) :
    Puts className extent features column landing.cell := by
  obtain ⟨share, given, ofShare⟩ := List.mem_flatMap.mp landed
  obtain ⟨feature, sorted, own⟩ := List.mem_filterMap.mp given
  obtain ⟨fragment, held, rfl⟩ := Option.map_eq_some_iff.mp own
  obtain ⟨row, inFragment, found⟩ := List.mem_filterMap.mp ofShare
  unfold Landing.ofRow? at found
  split at found
  · rename_i inTable
    obtain ⟨cell, placed, rfl⟩ := Option.map_eq_some_iff.mp found
    exact ⟨feature, List.mem_mergeSort.mp sorted, fragment, held, row, List.mem_mergeSort.mp inFragment,
      inTable, placed⟩
  · cases found

-- Any two parts of a class, the slugs of one below those of the other.
theorem merge_of_halves (className : String) (extent : Extent) (lower upper : List Feature)
    (apart : ∀ low ∈ lower, ∀ up ∈ upper, low.slug < up.slug)
    (listed : ∀ column, column ∉ [levelColumn, featureColumn, featuresColumn] → ∀ first second,
      Puts className extent lower column first → Puts className extent upper column second →
        ∃ items more, first = .list items ∧ second = .list more) :
    Table.merge [Table.compose className lower extent, Table.compose className upper extent] =
      .ok (Table.compose className (lower ++ upper) extent) := by
  have both := Contribution.ofFeatures_append className lower upper apart
  generalize lowerShares : Contribution.ofFeatures className lower = first at both
  generalize upperShares : Contribution.ofFeatures className upper = second at both
  have lists : ∀ column, column ∉ [levelColumn, featureColumn, featuresColumn] →
      Landing.ofShares extent column first ≠ [] → Landing.ofShares extent column second ≠ [] →
      ∀ landing ∈ Landing.ofShares extent column first ++ Landing.ofShares extent column second,
        landing.isList = true := by
    intro column ordinary inLower inUpper landing member
    obtain ⟨low, landedLow⟩ := List.exists_mem_of_ne_nil _ inLower
    obtain ⟨up, landedUp⟩ := List.exists_mem_of_ne_nil _ inUpper
    have ofLower (other : Landing) (landed : other ∈ Landing.ofShares extent column first) :=
      Puts.of_landing className extent lower column other (lowerShares ▸ landed)
    have ofUpper (other : Landing) (landed : other ∈ Landing.ofShares extent column second) :=
      Puts.of_landing className extent upper column other (upperShares ▸ landed)
    rcases List.mem_append.mp member with given | given
    · obtain ⟨items, _, held, _⟩ := listed column ordinary _ _ (ofLower landing given) (ofUpper up landedUp)
      simp [Landing.isList, held]
    · obtain ⟨_, items, _, held⟩ := listed column ordinary _ _ (ofLower low landedLow) (ofUpper landing given)
      simp [Landing.isList, held]
  have blank := Draft.blank_regular extent
  have merged := Table.mergeRows_rowwise (Draft.blank extent).rows (Draft.finishedRow extent first)
    (Draft.finishedRow extent second) (Draft.finishedRow extent (first ++ second)) (blank.ascending _ _)
    (Draft.level_finishedRow extent first) (Draft.level_finishedRow extent second)
    (Draft.combine_finishedRow extent first second lists)
  have given : [Table.compose className lower extent, Table.compose className upper extent].flatMap (·.rows) =
      (Draft.blank extent).rows.map (Draft.finishedRow extent first) ++
        (Draft.blank extent).rows.map (Draft.finishedRow extent second) := by
    rw [← Draft.finish_rows, ← Draft.finish_rows, ← lowerShares, ← upperShares, List.flatMap_cons,
      List.flatMap_singleton]
    rfl
  -- The merged rows are those of a finished table, so that aligning them again changes nothing.
  have regular := (Draft.applyAll_regular _ _ (first ++ second) blank).align
  have aligned := Uniform.align_eq_self _ (Uniform.align ((Draft.blank extent).applyAll (first ++ second)).rows)
    regular.columns
  rw [Table.merge, given, merged, ← Draft.finish_rows, Table.compose, both]
  exact congrArg (fun rows => Except.ok (Table.mk rows)) aligned

-- Both parts put names into one column, at different levels; every other column belongs to one part.
theorem halves_with_common_names :
    let feature (slug : String) (level : Level) (cells : List (String × Cell)) : Feature :=
      {slug := slug, classes := NameMap.ofList [("Bard", {progression := some [⟨level, NameMap.ofList cells⟩]})]}
    let lower := [feature "a" 1 [("Names", .list ["x"]), ("Die", .scalar (.text "d8"))]]
    let upper := [feature "b" 2 [("Names", .list ["y"]),
      ("Slots", .group (NameMap.ofList [("1st", some (.integer 2))]))]]
    let extent : Extent := {maxLevel := 3}
    Puts "Bard" extent lower "Names" (.list ["x"]) ∧ Puts "Bard" extent upper "Names" (.list ["y"]) ∧
      (∀ low ∈ lower, ∀ up ∈ upper, low.slug < up.slug) ∧
      Table.merge [Table.compose "Bard" lower extent, Table.compose "Bard" upper extent] =
        .ok (Table.compose "Bard" (lower ++ upper) extent) := by
  intro feature lower upper extent
  have puts (slug : String) (level : Level) (cells : List (String × Cell)) (column : String) (cell : Cell)
      (put : Puts "Bard" extent [feature slug level cells] column cell) :
      (column, cell) ∈ (NameMap.ofList cells).entries := by
    obtain ⟨_, only, fragment, own, row, inFragment, _, held⟩ := put
    cases List.mem_singleton.mp only
    cases own
    cases List.mem_singleton.mp inFragment
    exact NameMap.mem_of_lookup _ _ _ held
  have apart : ∀ low ∈ lower, ∀ up ∈ upper, low.slug < up.slug := by decide
  refine ⟨?_, ?_, apart, merge_of_halves "Bard" extent lower upper apart ?_⟩
  · exact ⟨_, List.mem_cons_self, _, rfl, _, List.mem_cons_self, by decide, by decide +kernel⟩
  · exact ⟨_, List.mem_cons_self, _, rfl, _, List.mem_cons_self, by decide, by decide +kernel⟩
  · intro column _ first second inLower inUpper
    have low : (column, first) ∈ [("Die", .scalar (.text "d8")), ("Names", .list ["x"])] := puts _ _ _ _ _ inLower
    have up : (column, second) ∈ [("Names", .list ["y"]),
        ("Slots", .group (NameMap.ofList [("1st", some (.integer 2))]))] := puts _ _ _ _ _ inUpper
    grind

end ClassProgression
