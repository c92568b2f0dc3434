import ClassProgression.Proofs.Table.LastWriter
import Mathlib

namespace ClassProgression

-- What the rows of a draft look like between any two steps.
structure Regular (highest : Nat) (rows : List Row) : Prop where
  -- Row by row: the first is at level one.
  levels : rows.map (·.level.toNat) = List.range' 1 highest
  columns : ∀ row ∈ rows, ∀ other ∈ rows, ∀ column, column ∈ row.columns.keys ↔ column ∈ other.columns.keys
  ordinary : ∀ row ∈ rows, ∀ column ∈ row.columns.keys, column ∉ [levelColumn, featureColumn, featuresColumn]

-- What finished rows are on top of that.
structure Uniform (rows : List Row) : Prop where
  keys : ∀ column, ∀ row ∈ rows, ∀ other ∈ rows, ∀ members more, row.group? column = some members →
    other.group? column = some more → ∀ key, key ∈ members.keys ↔ key ∈ more.keys
  filled : ∀ column, Alignment.Grouped rows column → ∀ row ∈ rows, row.cell? column ≠ none

-- The row at a level is the one whose place, counted from zero, is one less, and it is there.
structure Addresses (rows : List Row) (landing : Level) : Prop where
  positive : (landing - 1).toNat + 1 = landing.toNat
  inside : (landing - 1).toNat < rows.length
  place : ∀ index row, rows[index]? = some row → (row.level = landing ↔ index = (landing - 1).toNat)

namespace Step

def opens (column : String) : Step → Prop
  | .dropped _ => False
  | .placed _ other _ => column = other ∧ other ∉ [levelColumn, featureColumn, featuresColumn]

-- Where a step of a fragment comes from. Levels are added up as plain numbers, so nothing wraps.
theorem mem_ofFragment (extent : Extent) (fragment : List FragmentRow) (step : Step)
    (member : step ∈ ofFragment extent fragment) : ∃ row ∈ fragment,
      (step = .dropped row.level ∧ ¬ Landing.InTable extent row.level) ∨
      ∃ landing column cell, step = .placed landing column cell ∧ Landing.InTable extent row.level ∧
        landing.toNat = row.level.toNat + extent.offset.toNat ∧ row.cells.get? column = some cell := by
  obtain ⟨row, sorted, produced⟩ := List.mem_flatMap.mp member
  refine ⟨row, List.mem_mergeSort.mp sorted, ?_⟩
  unfold ofRow at produced
  rw [Extent.landing?_eq] at produced
  by_cases inTable : Landing.InTable extent row.level
  · simp only [if_pos inTable] at produced
    obtain ⟨⟨column, cell⟩, entry, rfl⟩ := List.mem_map.mp produced
    exact .inr ⟨_, column, cell, rfl, inTable, Landing.toNat_effective extent row.level inTable,
      NameMap.lookup_of_mem column cell _ row.cells.ascending entry⟩
  · simp only [if_neg inTable] at produced
    exact .inl ⟨List.mem_singleton.mp produced, inTable⟩

end Step

theorem Row.mem_keys_take (row : Row) (step : Step) (column : String) :
    column ∈ (row.take step).columns.keys ↔ column ∈ row.columns.keys ∨ step.opens column := by
  cases step with
  | dropped level => simp [take, Step.opens]
  | placed landing other cell =>
      by_cases reserved : other ∈ [levelColumn, featureColumn, featuresColumn]
      · have same : (row.place landing other cell).columns = row.columns := by
          simp only [List.mem_cons, List.not_mem_nil, or_false] at reserved
          unfold place
          grind
        simp [take, same, Step.opens, reserved]
      · have changed : (row.place landing other cell).columns =
            row.columns.insert other (landed cell landing row.level (row.columns.get? other)) := by
          simp only [List.mem_cons, List.not_mem_nil, or_false, not_or] at reserved
          simp [place, reserved]
        by_cases same : column = other <;> simp [take, changed, NameMap.mem_keys, Step.opens, same, reserved]

namespace Regular

variable (highest : Nat) (rows : List Row) (regular : Regular highest rows)
include regular

theorem length_rows : rows.length = highest := by
  simpa using congrArg List.length regular.levels

theorem level_at (index : Nat) (row : Row) (found : rows[index]? = some row) : row.level.toNat = index + 1 := by
  have inside : index < highest := by
    rw [← length_rows highest rows regular]
    exact (List.getElem?_eq_some_iff.mp found).1
  have level := congrArg (·[index]?) regular.levels
  simp only [List.getElem?_map, found, Option.map_some, List.getElem?_range' inside] at level
  have same := Option.some.inj level
  omega

theorem ascending : rows.Pairwise fun lower higher => lower.level < higher.level := by
  have levels : (rows.map (·.level.toNat)).Pairwise (· < ·) := regular.levels ▸ List.pairwise_lt_range'
  exact (List.pairwise_map.mp levels).imp UInt32.lt_iff_toNat_lt.mpr

theorem take (step : Step) : Regular highest (rows.map (·.take step)) := by
  refine ⟨?_, ?_, ?_⟩
  · simpa [Function.comp_def] using regular.levels
  · intro row member other otherMember column
    obtain ⟨before, inRows, rfl⟩ := List.mem_map.mp member
    obtain ⟨otherBefore, otherIn, rfl⟩ := List.mem_map.mp otherMember
    rw [Row.mem_keys_take, Row.mem_keys_take, regular.columns before inRows otherBefore otherIn]
  · intro row member column listed
    obtain ⟨before, inRows, rfl⟩ := List.mem_map.mp member
    rcases (Row.mem_keys_take before step column).mp listed with old | opened
    · exact regular.ordinary before inRows column old
    · cases step with
      | dropped level => exact opened.elim
      | placed landing other cell => exact opened.1 ▸ opened.2

theorem addresses (landing : Level) (low : 1 ≤ landing.toNat) (high : landing.toNat ≤ highest) :
    Addresses rows landing := by
  have before : (landing - 1).toNat = landing.toNat - 1 :=
    UInt32.toNat_sub_of_le landing 1 (UInt32.le_iff_toNat_le.mpr low)
  refine ⟨?_, ?_, ?_⟩
  · omega
  · rw [length_rows highest rows regular]
    omega
  · intro index row found
    have level := level_at highest rows regular index row found
    rw [← UInt32.toNat_inj]
    omega

theorem align : Regular highest (Alignment.align rows) := by
  refine ⟨?_, ?_, ?_⟩
  · have levels := congrArg (List.map UInt32.toNat) (Alignment.levels_align rows)
    rw [List.map_map, List.map_map] at levels
    exact levels.trans regular.levels
  · exact Alignment.columns_align rows
  · intro row member column listed
    obtain ⟨draft, inRows, holds⟩ := (Alignment.mem_columns_align rows column row member).mp listed
    exact regular.ordinary draft inRows column holds

end Regular

theorem Uniform.align (rows : List Row) : Uniform (Alignment.align rows) := by
  refine ⟨?_, ?_⟩
  · intro column row member other otherMember members more held otherHeld key
    rw [Alignment.mem_keys_align rows column row member members held,
      Alignment.mem_keys_align rows column other otherMember more otherHeld]
  · intro column grouped row member null
    obtain ⟨draft, inRows, rfl⟩ := List.mem_map.mp member
    rw [Alignment.cell?_alignRow rows column draft inRows,
      Alignment.groupKeys?_of_grouped rows column ((Alignment.grouped_align rows column).mp grouped)] at null
    cases held : draft.cell? column with
    | none => rw [held] at null; cases null
    | some cell => rw [held] at null; cases cell <;> cases null

theorem Uniform.align_eq_self (rows : List Row) (uniform : Uniform rows)
    (columns : ∀ row ∈ rows, ∀ other ∈ rows, ∀ column, column ∈ row.columns.keys ↔ column ∈ other.columns.keys) :
    Alignment.align rows = rows := by
  have unchanged : ∀ row ∈ rows, ∀ column, Alignment.alignCell (Alignment.groupKeys? rows column) (row.cell? column) =
      row.cell? column := by
    intro row member column
    by_cases grouped : Alignment.Grouped rows column
    · cases held : row.cell? column with
      | none => exact absurd held (uniform.filled column grouped row member)
      | some cell =>
          cases cell with
          | scalar value => exact Alignment.alignCell_scalar value _
          | list items => exact Alignment.alignCell_list items _
          | group members =>
              have own := (row.group?_eq_some column members).mpr held
              have known : ∀ key, key ∈ Alignment.keysOf rows column ↔ key ∈ members.keys := by
                intro key
                rw [Alignment.mem_keysOf]
                constructor
                · rintro ⟨other, otherMember, more, otherHeld, listed⟩
                  exact (uniform.keys column row member other otherMember members more own otherHeld key).mpr listed
                · exact fun listed => ⟨row, member, members, own, listed⟩
              rw [Alignment.alignCell_group rows column row member members held]
              refine congrArg (fun members => some (Cell.group members)) (NameMap.eq_of_get? _ _ fun key => ?_)
              cases found : members.get? key with
              | none => simp [known, NameMap.mem_keys, found]
              | some value => simp [known, members.mem_keys_of_get? key value found, found]
    · exact Alignment.alignCell_ungrouped rows column _ grouped
  refine (List.map_congr_left fun row member => ?_).trans (List.map_id rows)
  refine congrArg (fun columns => {row with columns := columns}) (NameMap.eq_of_get? _ _ fun column => ?_)
  refine (Alignment.get?_alignRow rows column row).trans ?_
  rw [unchanged row member column]
  split
  · rename_i listed
    obtain ⟨other, otherMember, holds⟩ := (Alignment.mem_columnNames rows column).mp listed
    obtain ⟨held, found⟩ := row.columns.exists_of_mem_keys column ((columns row member other otherMember column).mpr holds)
    rw [Row.cell?, found, Option.join_some]
  · rename_i unlisted
    exact (Alignment.get?_of_unlisted rows column row member unlisted).symm

namespace Draft

theorem blank_regular (extent : Extent) : Regular extent.maxLevel.toNat (blank extent).rows := by
  have bare : ∀ row ∈ (blank extent).rows, row.columns = {} := by
    intro row member
    obtain ⟨index, _, rfl⟩ := List.mem_map.mp member
    rfl
  refine ⟨levels_applyAll extent [], ?_, ?_⟩
  · intro row member other otherMember column
    rw [bare row member, bare other otherMember]
  · intro row member column listed
    rw [bare row member] at listed
    cases listed

theorem foldl_take_regular (highest : Nat) (draft : Draft) (steps : List Step)
    (regular : Regular highest draft.rows) : Regular highest (steps.foldl take draft).rows := by
  induction steps generalizing draft with
  | nil => exact regular
  | cons step rest ih =>
      rw [List.foldl_cons]
      refine ih (draft.take step) ?_
      rw [take_rows]
      exact regular.take highest draft.rows step

theorem applyAll_regular (highest : Nat) (draft : Draft) (shares : List Contribution)
    (regular : Regular highest draft.rows) : Regular highest (draft.applyAll shares).rows := by
  induction shares generalizing draft with
  | nil => exact regular
  | cons share rest ih => exact ih (draft.apply share.fragment) (foldl_take_regular highest draft _ regular)

end Draft

-- Any run of fragments, in the middle of any further fragment, and once it is finished.
theorem run_stays_regular (extent : Extent) (shares : List Contribution) :
    let draft := (Draft.blank extent).applyAll shares
    Regular extent.maxLevel.toNat draft.rows ∧
    (∀ fragment taken step rest, Step.ofFragment extent fragment = taken ++ step :: rest →
      let midway := taken.foldl Draft.take draft
      Regular extent.maxLevel.toNat midway.rows ∧ ∃ row ∈ fragment,
        (step = .dropped row.level ∧ ¬ Landing.InTable extent row.level) ∨
        ∃ landing column cell, step = .placed landing column cell ∧ row.cells.get? column = some cell ∧
          landing.toNat = row.level.toNat + extent.offset.toNat ∧ Addresses midway.rows landing) ∧
    Regular extent.maxLevel.toNat draft.finish.rows ∧ Uniform draft.finish.rows := by
  intro draft
  have regular := Draft.applyAll_regular _ _ shares (Draft.blank_regular extent)
  refine ⟨regular, ?_, regular.align _ _, Uniform.align _⟩
  intro fragment taken step rest parts midway
  have still := Draft.foldl_take_regular _ draft taken regular
  refine ⟨still, ?_⟩
  obtain ⟨row, given, origin⟩ := Step.mem_ofFragment extent fragment step (by rw [parts]; simp)
  rcases origin with dropped | ⟨landing, column, cell, placed, inTable, level, held⟩
  · exact ⟨row, given, .inl dropped⟩
  · have low : 1 ≤ landing.toNat := by rw [level]; exact inTable.1
    have high : landing.toNat ≤ extent.maxLevel.toNat := by rw [level]; exact inTable.2
    exact ⟨row, given, .inr ⟨landing, column, cell, placed, held, level, still.addresses _ _ landing low high⟩⟩

-- The highest level there is, moved up by one, does not come round to the lowest.
theorem highest_level_stays_regular :
    let extent : Extent := {maxLevel := 3, offset := 1}
    let names := Cell.list ["x"]
    let fragment : List FragmentRow := [⟨4294967295, {}⟩, ⟨2, NameMap.ofList [("Names", names)]⟩]
    let slots := Cell.group (NameMap.ofList [("1st", none)])
    let draft := (Draft.blank extent).applyAll [⟨"a", [⟨1, NameMap.ofList [("Slots", slots)]⟩]⟩]
    Step.ofFragment extent fragment = [.placed 3 "Names" names, .dropped 4294967295] ∧
      Addresses draft.rows 3 ∧ ¬ Landing.InTable extent 4294967295 ∧ Uniform draft.finish.rows := by
  intro extent names fragment slots draft
  have steps : Step.ofFragment extent fragment = [.placed 3 "Names" names, .dropped 4294967295] := by cbv
  obtain ⟨_, along, _, uniform⟩ := run_stays_regular extent
    [⟨"a", [⟨1, NameMap.ofList [("Slots", slots)]⟩]⟩]
  refine ⟨steps, ?_, ?_, uniform⟩
  · obtain ⟨_, row, _, origin⟩ := along fragment [] (.placed 3 "Names" names) _ steps
    rcases origin with ⟨wrong, _⟩ | ⟨landing, column, cell, same, _, _, addressed⟩
    · cases wrong
    · cases same
      exact addressed
  · obtain ⟨_, row, _, origin⟩ := along fragment [.placed 3 "Names" names] (.dropped 4294967295) _ steps
    rcases origin with ⟨same, outside⟩ | ⟨_, _, _, wrong, _⟩
    · rwa [Step.dropped.inj same]
    · cases wrong

end ClassProgression
