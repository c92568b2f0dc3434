import ClassProgression.Proofs.Table.Regular

namespace ClassProgression

inductive Quiet : Option Cell → Prop where
  | null : Quiet none
  | emptyList : Quiet (some (.list []))
  | nulls (members : Group) (unset : ∀ key value, members.get? key = some value → value = none) :
      Quiet (some (.group members))

namespace Step

def raise (offset : UInt32) : Step → Step
  | .dropped level => .dropped level
  | .placed landing column cell => .placed (landing + offset) column cell

def Within (highest : Nat) : Step → Prop
  | .dropped _ => True
  | .placed landing _ _ => 1 ≤ landing.toNat ∧ landing.toNat ≤ highest

end Step

namespace Row

def raise (offset : UInt32) (row : Row) : Row := {row with level := row.level + offset}

structure Idle (row : Row) : Prop where
  features : row.features = []
  cells : ∀ column held, row.columns.get? column = some held → held = none ∨ held = some (.list [])

end Row

section Words

theorem toNat_add_fits (left right : UInt32) (fits : left.toNat + right.toNat < UInt32.size) :
    (left + right).toNat = left.toNat + right.toNat := by
  rw [UInt32.toNat_add]
  exact Nat.mod_eq_of_lt fits

variable (offset left right : UInt32) (leftFits : left.toNat + offset.toNat < UInt32.size)
  (rightFits : right.toNat + offset.toNat < UInt32.size)
include leftFits rightFits

theorem raised_le_iff : left + offset ≤ right + offset ↔ left ≤ right := by
  rw [UInt32.le_iff_toNat_le, UInt32.le_iff_toNat_le, toNat_add_fits _ _ leftFits, toNat_add_fits _ _ rightFits]
  omega

theorem raised_inj : left + offset = right + offset ↔ left = right := by
  rw [← UInt32.toNat_inj, ← UInt32.toNat_inj, toNat_add_fits _ _ leftFits, toNat_add_fits _ _ rightFits]
  omega

end Words

section Steps

variable (highest offset : UInt32) (fits : offset ≤ highest)
include fits

-- Whether a cell lands in the table at all does not depend on the offset.
theorem Landing.inTable_moved (level : Level) (positive : 1 ≤ level) :
    InTable ⟨highest, offset⟩ level ↔ InTable ⟨highest - offset, 0⟩ level := by
  have smaller : (highest - offset).toNat = highest.toNat - offset.toNat := UInt32.toNat_sub_of_le _ _ fits
  have below := UInt32.le_iff_toNat_le.mp fits
  have first : 1 ≤ level.toNat := UInt32.le_iff_toNat_le.mp positive
  simp only [InTable, effective, smaller, UInt32.toNat_zero]
  omega

theorem Step.ofRow_moved (row : FragmentRow) (positive : 1 ≤ row.level) :
    ofRow ⟨highest, offset⟩ row = (ofRow ⟨highest - offset, 0⟩ row).map (raise offset) := by
  have alike := Landing.inTable_moved highest offset fits row.level positive
  unfold ofRow
  rw [Extent.landing?_eq, Extent.landing?_eq]
  by_cases inTable : Landing.InTable ⟨highest, offset⟩ row.level
  · have landing : UInt32.ofNat (Landing.effective ⟨highest, offset⟩ row.level) =
        UInt32.ofNat (Landing.effective ⟨highest - offset, 0⟩ row.level) + offset := by
      simp [Landing.effective]
    simp only [if_pos inTable, if_pos (alike.mp inTable), List.map_map, landing]
    rfl
  · simp only [if_neg inTable, if_neg (mt alike.mpr inTable)]
    rfl

theorem Step.ofShares_moved (shares : List Contribution)
    (positive : ∀ share ∈ shares, ∀ row ∈ share.fragment, 1 ≤ row.level) :
    ofShares ⟨highest, offset⟩ shares = (ofShares ⟨highest - offset, 0⟩ shares).map (raise offset) := by
  unfold ofShares ofFragment
  rw [List.map_flatMap]
  refine List.flatMap_congr fun share given => ?_
  rw [List.map_flatMap]
  refine List.flatMap_congr fun row sorted => ?_
  exact ofRow_moved highest offset fits row (positive share given row (List.mem_mergeSort.mp sorted))

end Steps

theorem Step.within_ofShares (highest : UInt32) (shares : List Contribution) (step : Step)
    (member : step ∈ ofShares ⟨highest, 0⟩ shares) : step.Within highest.toNat := by
  obtain ⟨share, _, made⟩ := List.mem_flatMap.mp member
  obtain ⟨row, _, ⟨rfl, _⟩ | ⟨landing, column, cell, rfl, inTable, level, _⟩⟩ := mem_ofFragment _ share.fragment step made
  · trivial
  · show 1 ≤ landing.toNat ∧ landing.toNat ≤ highest.toNat
    rw [level]
    exact inTable

namespace Row

section Raised

variable (offset : UInt32) (highest : Nat) (room : highest + offset.toNat < UInt32.size) (row : Row)
  (low : row.level.toNat ≤ highest)
include room low

theorem landed_raised (cell : Cell) (landing : Level) (held : Option (Option Cell)) (within : landing.toNat ≤ highest) :
    landed cell (landing + offset) (row.level + offset) held = landed cell landing row.level held := by
  have landingFits : landing.toNat + offset.toNat < UInt32.size := by omega
  have rowFits : row.level.toNat + offset.toNat < UInt32.size := by omega
  have reaches := raised_le_iff offset landing row.level landingFits rowFits
  have meets := raised_inj offset landing row.level landingFits rowFits
  cases cell with
  | scalar value => simp only [landed, reaches]
  | list items => simp only [landed, meets]
  | group members => simp only [landed, reaches]

-- One step, seen from a row and a step that are both moved up.
theorem take_raise (step : Step) (within : step.Within highest) :
    (row.raise offset).take (step.raise offset) = (row.take step).raise offset := by
  cases step with
  | dropped level => rfl
  | placed landing column cell =>
      have landingFits : landing.toNat + offset.toNat < UInt32.size := by have := within.2; omega
      have rowFits : row.level.toNat + offset.toNat < UInt32.size := by omega
      have meets := raised_inj offset row.level landing rowFits landingFits
      simp only [take, Step.raise, place, raise, meets, landed_raised offset highest room row low _ _ _ within.2]
      split
      · rfl
      · split
        · split <;> rfl
        · rfl

end Raised

theorem foldl_take_raise (offset : UInt32) (highest : Nat) (room : highest + offset.toNat < UInt32.size) (row : Row)
    (low : row.level.toNat ≤ highest) (steps : List Step) (within : ∀ step ∈ steps, step.Within highest) :
    (steps.map (Step.raise offset)).foldl take (row.raise offset) = (steps.foldl take row).raise offset := by
  induction steps generalizing row with
  | nil => rfl
  | cons step rest ih =>
      have ⟨first, later⟩ := List.forall_mem_cons.mp within
      rw [List.map_cons, List.foldl_cons, List.foldl_cons, take_raise offset highest room row low step first]
      exact ih (row.take step) (by simpa using low) later

section Quiet

-- What lands above a row leaves it idle: it learns no keys, as it holds no group.
theorem landed_idle (cell : Cell) (landing level : Level) (above : level < landing) (held : Option (Option Cell))
    (idle : ∀ own, held = some own → own = none ∨ own = some (.list [])) :
    landed cell landing level held = none ∨ landed cell landing level held = some (.list []) := by
  have unreached : ¬ landing ≤ level := UInt32.not_le.mpr above
  have elsewhere : landing ≠ level := fun same => unreached (same ▸ UInt32.le_refl _)
  have joined : held.join = none ∨ held.join = some (.list []) := by
    cases held with
    | none => exact .inl rfl
    | some own => exact idle own rfl
  cases cell with
  | scalar value =>
      simp only [landed, if_neg unreached]
      exact joined
  | list items =>
      simp only [landed, if_neg elsewhere]
      cases held with
      | none => exact .inr rfl
      | some own => exact idle own rfl
  | group members =>
      simp only [landed, if_neg unreached]
      rcases joined with null | empty
      · rw [null]
        exact .inl rfl
      · rw [empty]
        exact .inr rfl

theorem Idle.place (row : Row) (idle : row.Idle) (landing : Level) (column : String) (cell : Cell)
    (above : row.level < landing) : (row.place landing column cell).Idle := by
  have elsewhere : row.level ≠ landing := fun same => UInt32.lt_irrefl _ (same ▸ above)
  unfold Row.place
  split
  · exact idle
  · split
    · exact idle
    · refine ⟨idle.features, fun name held found => ?_⟩
      rw [NameMap.get?_insert] at found
      split at found
      · cases found
        exact landed_idle cell landing row.level above _ (idle.cells column)
      · exact idle.cells name held found

theorem Idle.foldl_take (offset : UInt32) (highest : Nat) (room : highest + offset.toNat < UInt32.size) (row : Row)
    (idle : row.Idle) (low : row.level.toNat ≤ offset.toNat) (steps : List Step)
    (within : ∀ step ∈ steps, step.Within highest) : ((steps.map (Step.raise offset)).foldl Row.take row).Idle := by
  induction steps generalizing row with
  | nil => exact idle
  | cons step rest ih =>
      have ⟨first, later⟩ := List.forall_mem_cons.mp within
      rw [List.map_cons, List.foldl_cons]
      refine ih _ ?_ (by simpa using low) later
      cases step with
      | dropped level => exact idle
      | placed landing column cell =>
          refine idle.place row (landing + offset) column cell (UInt32.lt_iff_toNat_lt.mpr ?_)
          have positive := first.1
          have bounded := first.2
          rw [toNat_add_fits landing offset (by omega)]
          omega

end Quiet

end Row

namespace Draft

theorem blank_moved (highest offset : UInt32) (fits : offset ≤ highest) : (blank ⟨highest, offset⟩).rows =
    (blank ⟨offset, 0⟩).rows ++ (blank ⟨highest - offset, 0⟩).rows.map (Row.raise offset) := by
  have smaller : (highest - offset).toNat = highest.toNat - offset.toNat := UInt32.toNat_sub_of_le _ _ fits
  have whole : highest.toNat = offset.toNat + (highest.toNat - offset.toNat) :=
    (Nat.add_sub_cancel' (UInt32.le_iff_toNat_le.mp fits)).symm
  simp only [blank, smaller]
  rw [whole, List.range_add, List.map_append, List.map_map, List.map_map, Nat.add_sub_cancel_left]
  refine congrArg (_ ++ ·) (List.map_congr_left fun index _ => ?_)
  have level : UInt32.ofNat (offset.toNat + index + 1) = UInt32.ofNat (index + 1) + offset := by
    rw [Nat.add_assoc, UInt32.ofNat_add, UInt32.ofNat_toNat, UInt32.add_comm]
  simp only [Function.comp_apply, Row.raise, level]

theorem level_le_of_mem_blank (extent : Extent) (row : Row) (member : row ∈ (blank extent).rows) :
    row.level.toNat ≤ extent.maxLevel.toNat := by
  have listed : row.level.toNat ∈ List.range' 1 extent.maxLevel.toNat := by
    rw [← (blank_regular extent).levels]
    exact List.mem_map_of_mem member
  have bounds := List.mem_range'_1.mp listed
  omega

theorem idle_of_mem_blank (extent : Extent) (row : Row) (member : row ∈ (blank extent).rows) : row.Idle := by
  obtain ⟨index, _, rfl⟩ := List.mem_map.mp member
  exact ⟨rfl, fun column held found => nomatch found⟩

variable (highest offset : UInt32) (fits : offset ≤ highest) (shares : List Contribution)
  (positive : ∀ share ∈ shares, ∀ row ∈ share.fragment, 1 ≤ row.level)
include fits positive

-- The draft of the larger table: idle rows, and then the smaller table's draft.
theorem applyAll_moved : ∃ lower : List Row, (∀ row ∈ lower, row.Idle) ∧
    lower.map (·.level.toNat) = List.range' 1 offset.toNat ∧
    ((blank ⟨highest, offset⟩).applyAll shares).rows =
      lower ++ ((blank ⟨highest - offset, 0⟩).applyAll shares).rows.map (Row.raise offset) := by
  have smaller : (highest - offset).toNat = highest.toNat - offset.toNat := UInt32.toNat_sub_of_le _ _ fits
  have room : (highest - offset).toNat + offset.toNat < UInt32.size := by
    rw [smaller, Nat.sub_add_cancel (UInt32.le_iff_toNat_le.mp fits)]
    exact highest.toNat_lt_size
  have within := Step.within_ofShares (highest - offset) shares
  have moved := Step.ofShares_moved highest offset fits shares positive
  refine ⟨(blank ⟨offset, 0⟩).rows.map fun row =>
    ((Step.ofShares ⟨highest - offset, 0⟩ shares).map (Step.raise offset)).foldl Row.take row, ?_, ?_, ?_⟩
  · intro row member
    obtain ⟨start, inBlank, rfl⟩ := List.mem_map.mp member
    exact (idle_of_mem_blank _ start inBlank).foldl_take offset _ room start
      (level_le_of_mem_blank _ start inBlank) _ within
  · simpa [Function.comp_def] using (blank_regular ⟨offset, 0⟩).levels
  · rw [applyAll_rows, applyAll_rows]
    simp only
    rw [blank_moved highest offset fits, List.map_append, List.map_map, List.map_map]
    refine congrArg₂ (· ++ ·) (List.map_congr_left fun row _ => ?_) (List.map_congr_left fun row member => ?_)
    · exact congrArg (List.foldl Row.take row) moved
    · refine (congrArg (List.foldl Row.take (row.raise offset)) moved).trans ?_
      exact Row.foldl_take_raise offset _ room row (level_le_of_mem_blank _ row member) _ within

end Draft

section Finishing

variable (lower upper : List Row) (offset : UInt32) (idle : ∀ row ∈ lower, row.Idle)
include idle

-- Idle rows hold no groups, so they have no say in the keys of a column.
theorem groupKeys?_moved (column : String) :
    Alignment.groupKeys? (lower ++ upper.map (Row.raise offset)) column = Alignment.groupKeys? upper column := by
  have ungrouped : (lower.filterMap fun row => row.group? column) = [] := by
    refine List.filterMap_eq_nil_iff.mpr fun row member => ?_
    unfold Row.group? Row.cell?
    cases found : row.columns.get? column with
    | none => rfl
    | some held =>
        rcases (idle row member).cells column held found with null | empty
        · rw [null]
          rfl
        · rw [empty]
          rfl
  have gathered : ((lower ++ upper.map (Row.raise offset)).filterMap fun row => row.group? column) =
      upper.filterMap fun row => row.group? column := by
    rw [List.filterMap_append, ungrouped, List.nil_append, List.filterMap_map]
    rfl
  unfold Alignment.groupKeys?
  rw [gathered]

theorem alignRow_moved (highest : Nat) (regular : Regular highest (lower ++ upper.map (Row.raise offset)))
    (row : Row) (member : row ∈ upper) :
    Alignment.alignRow (Alignment.plan (lower ++ upper.map (Row.raise offset))) (row.raise offset) =
      (Alignment.alignRow (Alignment.plan upper) row).raise offset := by
  have listed (column : String) : column ∈ Alignment.columnNames (lower ++ upper.map (Row.raise offset)) ↔
      column ∈ Alignment.columnNames upper := by
    have raised : row.raise offset ∈ lower ++ upper.map (Row.raise offset) :=
      List.mem_append_right lower (List.mem_map_of_mem member)
    rw [Alignment.mem_columnNames, Alignment.mem_columnNames]
    constructor
    · intro held
      obtain ⟨other, otherMember, holds⟩ := held
      exact ⟨row, member, (regular.columns other otherMember _ raised column).mp holds⟩
    · intro held
      obtain ⟨other, otherMember, holds⟩ := held
      exact ⟨other.raise offset, List.mem_append_right lower (List.mem_map_of_mem otherMember), holds⟩
  refine congrArg (fun columns => (⟨row.level + offset, row.features, columns⟩ : Row)) ?_
  refine NameMap.eq_of_get? _ _ fun column => ?_
  refine (Alignment.get?_alignRow _ column _).trans (Eq.trans ?_ (Alignment.get?_alignRow upper column row).symm)
  rw [groupKeys?_moved lower upper offset idle]
  exact if_congr (listed column) rfl rfl

theorem Quiet.alignRow (row : Row) (member : row ∈ lower) (planned : List Row) (column : String) (held : Option Cell)
    (found : (Alignment.alignRow (Alignment.plan planned) row).columns.get? column = some held) : Quiet held := by
  rw [Alignment.get?_alignRow] at found
  split at found
  · cases found
    have nulls (names : List String) : Quiet (some (.group (Group.learn {} names))) := by
      refine .nulls _ fun key value known => ?_
      simp only [Group.get?_learn, NameMap.get?_empty, Option.none_or] at known
      split at known
      · exact (Option.some.inj known).symm
      · cases known
    have own : row.cell? column = none ∨ row.cell? column = some (.list []) := by
      unfold Row.cell?
      cases has : row.columns.get? column with
      | none => exact .inl rfl
      | some held => exact (idle row member).cells column held has
    rcases own with null | empty
    · rw [null]
      cases Alignment.groupKeys? planned column with
      | none => exact .null
      | some names => exact nulls names
    · simpa [empty] using .emptyList
  · cases found

end Finishing

-- The table of a class, moved up. No level wraps: rows stand at one, two and so on up to the highest level.
theorem offset_is_shift (className : String) (features : List Feature) (highest offset : UInt32) (fits : offset ≤ highest)
    (positive : ∀ feature ∈ features, ∀ fragment, feature.progression? className = some fragment →
      ∀ row ∈ fragment, 1 ≤ row.level) :
    let moved := Table.compose className features ⟨highest, offset⟩
    let unmoved := Table.compose className features ⟨highest - offset, 0⟩
    moved.rows.map (·.level.toNat) = List.range' 1 highest.toNat ∧
    unmoved.rows.map (·.level.toNat) = List.range' 1 (highest.toNat - offset.toNat) ∧
    ∃ quiet : List Row, moved.rows = quiet ++ unmoved.rows.map (Row.raise offset) ∧ quiet.length = offset.toNat ∧
      ∀ row ∈ quiet, row.features = [] ∧ ∀ column held, row.columns.get? column = some held → Quiet held := by
  intro moved unmoved
  have shared : ∀ share ∈ Contribution.ofFeatures className features, ∀ row ∈ share.fragment, 1 ≤ row.level := by
    intro share given
    obtain ⟨feature, sorted, own⟩ := List.mem_filterMap.mp given
    obtain ⟨fragment, held, rfl⟩ := Option.map_eq_some_iff.mp own
    exact positive feature (List.mem_mergeSort.mp sorted) fragment held
  have regular (extent : Extent) :=
    Draft.applyAll_regular _ _ (Contribution.ofFeatures className features) (Draft.blank_regular extent)
  have smaller : (highest - offset).toNat = highest.toNat - offset.toNat := UInt32.toNat_sub_of_le _ _ fits
  obtain ⟨lower, idle, levels, rows⟩ := Draft.applyAll_moved highest offset fits _ shared
  have whole := regular ⟨highest, offset⟩
  refine ⟨(whole.align _ _).levels, smaller ▸ ((regular ⟨highest - offset, 0⟩).align _ _).levels,
    lower.map (Alignment.alignRow (Alignment.plan ((Draft.blank ⟨highest, offset⟩).applyAll
      (Contribution.ofFeatures className features)).rows)), ?_, ?_, ?_⟩
  · rw [rows] at whole
    change Alignment.align _ = _ ++ List.map _ (Alignment.align _)
    rw [rows, Alignment.align, List.map_append, List.map_map, Alignment.align, List.map_map]
    refine congrArg (_ ++ ·) (List.map_congr_left fun row member => ?_)
    exact alignRow_moved lower _ offset idle _ whole row member
  · rw [List.length_map]
    simpa using congrArg List.length levels
  · intro row member
    obtain ⟨draft, inLower, rfl⟩ := List.mem_map.mp member
    exact ⟨(idle draft inLower).features, fun column held found =>
      Quiet.alignRow lower idle draft inLower _ column held found⟩

-- The fragment's last row is far above the table: moved up by one it would come round to zero.
theorem bard_table_moved_up :
    let slots := Cell.group (NameMap.ofList [("1st", some (.integer 2))])
    let fragment : List FragmentRow := [⟨1, NameMap.ofList [("Features", .list ["Song"]), ("Songs", .list ["Lullaby"])]⟩,
      ⟨2, NameMap.ofList [("Slots", slots)]⟩, ⟨4294967295, NameMap.ofList [("Slots", .scalar (.integer 9))]⟩]
    let features : List Feature := [{slug := "a", classes := NameMap.ofList [("Bard", {progression := some fragment})]}]
    let moved := Table.compose "Bard" features ⟨3, 1⟩
    let unmoved := Table.compose "Bard" features ⟨2, 0⟩
    unmoved.rows.map (·.features) = [["Song"], []] ∧
    (unmoved.rows.map fun row => row.cell? "Songs") = [some (.list ["Lullaby"]), some (.list [])] ∧
    ∃ quiet : List Row, moved.rows = quiet ++ unmoved.rows.map (Row.raise 1) ∧ quiet.length = 1 ∧
      ∀ row ∈ quiet, row.features = [] ∧ ∀ column held, row.columns.get? column = some held → Quiet held := by
  intro slots fragment features moved unmoved
  have positive : ∀ feature ∈ features, ∀ own, feature.progression? "Bard" = some own → ∀ row ∈ own, 1 ≤ row.level := by
    refine List.forall_mem_singleton.mpr fun own held => ?_
    obtain rfl : fragment = own := Option.some.inj held
    decide
  have law := offset_is_shift "Bard" features 3 1 (by decide) positive
  exact ⟨by cbv, by cbv, law.2.2⟩

end ClassProgression
