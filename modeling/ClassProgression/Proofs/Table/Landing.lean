import ClassProgression.NameMap.Lemmas
import ClassProgression.Table.Composition
import Mathlib.Data.List.Induction

namespace ClassProgression

-- A cell of some column with the level it came to lie at. The level is a plain number: moving up
-- never wraps.
structure Landing where
  level : Nat
  cell : Cell
deriving DecidableEq

namespace Landing

def effective (extent : Extent) (level : Level) : Nat := level.toNat + extent.offset.toNat

def InTable (extent : Extent) (level : Level) : Prop :=
  1 ≤ effective extent level ∧ effective extent level ≤ extent.maxLevel.toNat

instance (extent : Extent) (level : Level) : Decidable (InTable extent level) :=
  inferInstanceAs (Decidable (_ ∧ _))

def ofRow? (extent : Extent) (column : String) (row : FragmentRow) : Option Landing :=
  if InTable extent row.level then (row.cells.get? column).map (Landing.mk (effective extent row.level))
  else none

-- In ascending order of the fragment's levels, rows of one level in the order given.
def ofFragment (extent : Extent) (column : String) (fragment : List FragmentRow) : List Landing :=
  (fragment.mergeSort fun left right => decide (left.level ≤ right.level)).filterMap (ofRow? extent column)

def ofShares (extent : Extent) (column : String) (shares : List Contribution) : List Landing :=
  shares.flatMap fun share => ofFragment extent column share.fragment

theorem ofRow?_ne_none (extent : Extent) (column : String) (row : FragmentRow) :
    ofRow? extent column row ≠ none ↔ InTable extent row.level ∧ column ∈ row.cells.keys := by
  unfold ofRow?
  rw [NameMap.mem_keys]
  split
  · rename_i inTable
    cases row.cells.get? column <;> simp [inTable]
  · rename_i outside
    simp [outside]

theorem ofShares_ne_nil (extent : Extent) (column : String) (shares : List Contribution) :
    ofShares extent column shares ≠ [] ↔
      ∃ share ∈ shares, ∃ row ∈ share.fragment, InTable extent row.level ∧ column ∈ row.cells.keys := by
  constructor
  · intro inhabited
    obtain ⟨landing, member⟩ := List.exists_mem_of_ne_nil _ inhabited
    obtain ⟨share, given, landed⟩ := List.mem_flatMap.mp member
    obtain ⟨row, sorted, found⟩ := List.mem_filterMap.mp landed
    refine ⟨share, given, row, List.mem_mergeSort.mp sorted, ?_⟩
    exact (ofRow?_ne_none extent column row).mp (by simp [found])
  · rintro ⟨share, given, row, member, lands⟩
    obtain ⟨landing, found⟩ := Option.ne_none_iff_exists'.mp ((ofRow?_ne_none extent column row).mpr lands)
    refine List.ne_nil_of_mem (a := landing) (List.mem_flatMap.mpr ⟨share, given, ?_⟩)
    exact List.mem_filterMap.mpr ⟨row, List.mem_mergeSort.mpr member, found⟩

end Landing

theorem Extent.landing?_eq (extent : Extent) (level : Level) : extent.landing? level =
    if Landing.InTable extent level then some (UInt32.ofNat (Landing.effective extent level)) else none := rfl

theorem Landing.toNat_effective (extent : Extent) (level : Level) (inTable : InTable extent level) :
    (UInt32.ofNat (effective extent level)).toNat = effective extent level :=
  UInt32.toNat_ofNat_of_lt' (Nat.lt_of_le_of_lt inTable.2 extent.maxLevel.toNat_lt_size)

namespace Step

def landing? (column : String) : Step → Option Landing
  | .dropped _ => none
  | .placed landing other cell => if other = column then some ⟨landing.toNat, cell⟩ else none

@[simp]
theorem landings_ofRow (extent : Extent) (column : String) (row : FragmentRow) :
    (ofRow extent row).filterMap (landing? column) = (Landing.ofRow? extent column row).toList := by
  unfold ofRow Landing.ofRow?
  rw [Extent.landing?_eq]
  by_cases inTable : Landing.InTable extent row.level
  · simp only [if_pos inTable]
    rw [List.filterMap_map, ← NameMap.filterMap_entries]
    refine congrArg (fun pick => List.filterMap pick row.cells.entries) (funext fun entry => ?_)
    simp only [Function.comp_apply, landing?, Landing.toNat_effective extent row.level inTable]
  · simp only [if_neg inTable]
    rfl

@[simp]
theorem landings_ofFragment (extent : Extent) (column : String) (fragment : List FragmentRow) :
    (ofFragment extent fragment).filterMap (landing? column) = Landing.ofFragment extent column fragment := by
  unfold ofFragment Landing.ofFragment
  rw [List.filterMap_flatMap]
  generalize fragment.mergeSort _ = sorted
  induction sorted with
  | nil => rfl
  | cons row rest ih =>
      rw [List.flatMap_cons, ih, landings_ofRow, List.filterMap_cons]
      cases Landing.ofRow? extent column row <;> rfl

def gained (level : Level) : Step → List String
  | .dropped _ => []
  | .placed landing column cell =>
      if (column = featureColumn ∨ column = featuresColumn) ∧ level = landing then cell.featureNames else []

def ofShares (extent : Extent) (shares : List Contribution) : List Step :=
  shares.flatMap fun share => ofFragment extent share.fragment

@[simp]
theorem landings_ofShares (extent : Extent) (column : String) (shares : List Contribution) :
    (ofShares extent shares).filterMap (landing? column) = Landing.ofShares extent column shares := by
  rw [ofShares, List.filterMap_flatMap]
  simp only [landings_ofFragment]
  rfl

end Step

namespace Row

def take (row : Row) : Step → Row
  | .dropped _ => row
  | .placed landing column cell => row.place landing column cell

end Row

namespace Draft

theorem take_rows (draft : Draft) (step : Step) : draft.take step = {draft with rows := draft.rows.map (·.take step)} := by
  cases step with
  | dropped level => simp [take, Row.take]
  | placed landing column cell => rfl

theorem foldl_take (draft : Draft) (steps : List Step) :
    steps.foldl take draft = {draft with rows := draft.rows.map fun row => steps.foldl Row.take row} := by
  induction steps generalizing draft with
  | nil => simp
  | cons step rest ih => rw [List.foldl_cons, ih, take_rows]; simp

theorem applyAll_rows (draft : Draft) (shares : List Contribution) : draft.applyAll shares =
    {draft with rows := draft.rows.map fun row => (Step.ofShares draft.extent shares).foldl Row.take row} := by
  induction shares generalizing draft with
  | nil => simp [applyAll, Step.ofShares]
  | cons share rest ih =>
      have first : draft.applyAll (share :: rest) = (draft.apply share.fragment).applyAll rest := rfl
      rw [first, ih, apply, foldl_take]
      simp [Step.ofShares]

end Draft

namespace Row

@[simp]
theorem level_take (row : Row) (step : Step) : (row.take step).level = row.level := by
  cases step with
  | dropped level => rfl
  | placed landing column cell => grind [take, place]

@[simp]
theorem level_foldl_take (row : Row) (steps : List Step) : (steps.foldl take row).level = row.level := by
  induction steps generalizing row with
  | nil => rfl
  | cons step rest ih => simp [ih]

@[simp]
theorem features_take (row : Row) (step : Step) :
    (row.take step).features = row.features ++ step.gained row.level := by
  cases step with
  | dropped level => exact (List.append_nil _).symm
  | placed landing column cell =>
      unfold take place Step.gained
      by_cases levels : column = levelColumn
      · subst levels
        simp [levelColumn, featureColumn, featuresColumn]
      · by_cases names : column = featureColumn ∨ column = featuresColumn
        · by_cases here : row.level = landing <;> simp [levels, names, here]
        · simp [levels, names]

@[simp]
theorem features_foldl_take (row : Row) (steps : List Step) :
    (steps.foldl take row).features = row.features ++ steps.flatMap (Step.gained row.level) := by
  induction steps generalizing row with
  | nil => simp
  | cons step rest ih => simp [ih]

end Row

end ClassProgression
