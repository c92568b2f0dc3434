import ClassProgression.Proofs.Table.Floats
import ClassProgression.Proofs.Table.Independence

namespace ClassProgression

-- What a row holds in a column, but for the order of a list's entries.
inductive Cell.Rearranged : Option Cell → Option Cell → Prop where
  | same (held : Option Cell) : Rearranged held held
  | lists (items others : List String) (permuted : items.Perm others) :
      Rearranged (some (.list items)) (some (.list others))

structure Row.Rearranged (row other : Row) : Prop where
  level : row.level = other.level
  features : row.features.Perm other.features
  columns : ∀ column, column ∈ row.columns.keys ↔ column ∈ other.columns.keys
  cells : ∀ column, Cell.Rearranged (row.cell? column) (other.cell? column)

-- Cells of one place that do not go together, whatever the order and the other cells.
inductive Opposed (cells : List Cell) : Prop where
  | kinds (left right : Cell) (inLeft : left ∈ cells) (inRight : right ∈ cells) (different : left.kind ≠ right.kind)
  | scalars (left right : Scalar) (inLeft : .scalar left ∈ cells) (inRight : .scalar right ∈ cells)
      (different : left ≠ right)
  | texts (key text : String) (other : Scalar) (inText : .text text ∈ Cell.valuesAt cells key)
      (inOther : other ∈ Cell.valuesAt cells key) (different : other ≠ .text text)

section Exact

-- Values without floats agree exactly if they are equal, and their sums are exact.

theorem Scalar.beq_symm (left right : Scalar) (same : (left == right) = true) : (right == left) = true := by
  cases left with
  | text text =>
      rw [eq_of_text_beq text right same]
      exact beq_self_eq_true text
  | integer value =>
      cases right with
      | integer other => exact show (other == value) = true from BEq.symm (show (value == other) = true from same)
      | float other => cases same
      | text other => cases same
  | float value =>
      cases right with
      | float other => exact show (other == value) = true from BEq.symm (show (value == other) = true from same)
      | integer other => cases same
      | text other => cases same

theorem Scalar.beq_iff_eq (left right : Scalar) (exact : left.float? = none) : (left == right) = true ↔ left = right := by
  cases left with
  | float value => cases exact
  | text text =>
      refine ⟨fun same => (eq_of_text_beq text right same).symm, ?_⟩
      rintro rfl
      exact beq_self_eq_true text
  | integer value =>
      constructor
      · intro same
        cases right with
        | integer other => exact congrArg Scalar.integer (eq_of_beq (show (value == other) = true from same))
        | float other => cases same
        | text other => cases same
      · rintro rfl
        exact beq_self_eq_true value

theorem Scalar.integers_of_numbers (values : List Scalar) (exact : ∀ value ∈ values, value.float? = none)
    (numbers : ∀ value ∈ values, ∀ text, value ≠ .text text) :
    ∃ integers : List Int64, values = integers.map .integer := by
  induction values with
  | nil => exact ⟨[], rfl⟩
  | cons head rest ih =>
      obtain ⟨integers, rfl⟩ := ih (fun value later => exact value (.tail head later))
        fun value later => numbers value (.tail head later)
      cases head with
      | integer value => exact ⟨value :: integers, rfl⟩
      | float value => cases exact _ List.mem_cons_self
      | text text => exact absurd rfl (numbers _ List.mem_cons_self text)

theorem Total.perm (values others : List Scalar) (permuted : values.Perm others)
    (exact : ∀ value ∈ values, value.float? = none) (left right : Option Scalar) (first : Total values left)
    (second : Total others right) : left = right := by
  have otherExact : ∀ value ∈ others, value.float? = none := fun value member =>
    exact value (permuted.mem_iff.mpr member)
  cases first with
  | nothing =>
      cases permuted.nil_eq
      cases second
      rfl
  | texts text more agree =>
      have all : ∀ value ∈ others, value = .text text := fun value member =>
        (List.mem_cons.mp (permuted.mem_iff.mpr member)).elim id (agree value)
      cases second with
      | nothing => cases permuted.eq_nil
      | texts other _ _ => rw [all _ List.mem_cons_self]
      | numbers start _ _ noText _ _ => exact absurd (all start List.mem_cons_self) (noText start List.mem_cons_self text)
  | numbers start rest sum noText _ sums =>
      have numbers : ∀ value ∈ others, ∀ text, value ≠ .text text := fun value member =>
        noText value (permuted.mem_iff.mpr member)
      obtain ⟨integers, whole⟩ := Scalar.integers_of_numbers _ exact noText
      obtain ⟨otherIntegers, otherWhole⟩ := Scalar.integers_of_numbers _ otherExact numbers
      obtain ⟨total, rfl, summed⟩ := sums integers whole
      cases second with
      | nothing => cases permuted.eq_nil
      | texts text _ _ => exact absurd rfl (numbers _ List.mem_cons_self text)
      | numbers _ _ _ _ _ otherSums =>
          obtain ⟨otherTotal, rfl, otherSummed⟩ := otherSums otherIntegers otherWhole
          rw [whole, otherWhole, List.map_perm_map_iff fun _ _ => Scalar.integer.inj] at permuted
          have equal := (permuted.map (·.toInt)).sum_eq
          rw [← summed, ← otherSummed, Int64.toInt_inj] at equal
          rw [equal]

theorem Cell.exact_valuesAt (cells : List Cell) (exact : ∀ cell ∈ cells, cell.floats = []) (key : String) :
    ∀ value ∈ valuesAt cells key, value.float? = none := by
  intro value member
  obtain ⟨members, listed, held⟩ := List.mem_filterMap.mp member
  obtain ⟨cell, inCells, own⟩ := List.mem_filterMap.mp listed
  have free := exact cell inCells
  cases cell with
  | scalar _ => cases own
  | list _ => cases own
  | group group =>
      obtain rfl : group = members := Option.some.inj own
      refine Option.eq_none_iff_forall_ne_some.mpr fun number float => ?_
      have listed := (Group.mem_floats group number).mpr ⟨key, value, Option.join_eq_some_iff.mp held, float⟩
      rw [show Group.floats group = [] from free] at listed
      cases listed

theorem Cell.exact_scalar (cells : List Cell) (exact : ∀ cell ∈ cells, cell.floats = []) (value : Scalar)
    (member : .scalar value ∈ cells) : value.float? = none :=
  Option.toList_eq_nil_iff.mp (exact _ member)

end Exact

section Results

theorem Pooled.perm (cells others : List Cell) (permuted : cells.Perm others)
    (exact : ∀ cell ∈ cells, cell.floats = []) (left right : Option Cell) (first : Pooled cells left)
    (second : Pooled others right) : Cell.Rearranged left right := by
  cases first with
  | nothing =>
      cases permuted.nil_eq
      cases second
      exact .same none
  | lists head rest =>
      have listed : .list head ∈ others := permuted.mem_iff.mp List.mem_cons_self
      cases second with
      | nothing => cases listed
      | scalars _ _ _ => simp at listed
      | groups _ _ _ _ _ => simp at listed
      | lists other more =>
          rw [List.map_perm_map_iff fun _ _ => Cell.list.inj] at permuted
          exact .lists _ _ permuted.flatten
  | scalars head rest agree =>
      have listed : .scalar head ∈ others := permuted.mem_iff.mp List.mem_cons_self
      cases second with
      | nothing => cases listed
      | lists _ _ => simp at listed
      | groups _ _ _ _ _ => simp at listed
      | scalars other more otherAgree =>
          have meets : .scalar other ∈ (head :: rest).map Cell.scalar := permuted.mem_iff.mpr List.mem_cons_self
          have exactHead := Cell.exact_scalar _ exact head List.mem_cons_self
          have same : head = other := by
            rcases List.mem_cons.mp meets with equal | later
            · exact (Cell.scalar.inj equal).symm
            · obtain ⟨value, inRest, equal⟩ := List.mem_map.mp later
              exact ((head.beq_iff_eq value exactHead).mp (agree value inRest)).trans (Cell.scalar.inj equal)
          rw [same]
          exact .same _
  | groups head rest members known totals =>
      have listed : .group head ∈ others := permuted.mem_iff.mp List.mem_cons_self
      have exactAt := Cell.exact_valuesAt _ exact
      cases second with
      | nothing => cases listed
      | lists _ _ => simp at listed
      | scalars _ _ _ => simp at listed
      | groups other more otherMembers otherKnown otherTotals =>
          simp only [Cell.valuesAt_groups] at exactAt
          rw [List.map_perm_map_iff fun _ _ => Cell.group.inj] at permuted
          have same : members = otherMembers := Group.eq_of_keys members otherMembers
            (fun key => by simp only [known, otherKnown, permuted.mem_iff])
            fun key => (totals key).perm _ _ (permuted.filterMap _) (exactAt key) _ _ (otherTotals key)
          rw [same]
          exact .same _

theorem Row.exact_cell (row : Row) (exact : row.floats = []) (column : String) (cell : Cell)
    (held : row.cell? column = some cell) : cell.floats = [] := by
  refine List.eq_nil_iff_forall_not_mem.mpr fun number float => ?_
  have listed := (row.mem_floats number).mpr ⟨column, by rw [held]; exact float⟩
  rw [exact] at listed
  cases listed

theorem Gathers.rearranged (given others : List Row) (permuted : given.Perm others)
    (exact : ∀ row ∈ given, row.floats = []) (row other : Row) (level : row.level = other.level)
    (first : Gathers given row) (second : Gathers others other) : row.Rearranged other where
  level := level
  features := by
    rw [first.features, second.features]
    exact permuted.flatMap_right _
  columns column := by simp only [first.columns, second.columns, permuted.mem_iff]
  cells column := by
    refine (first.cells column).perm _ _ (permuted.filterMap _) (fun cell member => ?_) _ _ (second.cells column)
    obtain ⟨origin, inGiven, held⟩ := List.mem_filterMap.mp member
    exact origin.exact_cell (exact origin inGiven) column cell held

theorem Table.Merged.rearranged (given others rows more : List Row) (permuted : given.Perm others)
    (exact : ∀ row ∈ given, row.floats = []) (first : Merged given rows) (second : Merged others more) :
    List.Forall₂ Row.Rearranged rows more := by
  have levels : rows.map (·.level) = more.map (·.level) := by
    refine Sorted.eq_of_members id _ _ (List.pairwise_map.mpr first.ascending) (List.pairwise_map.mpr second.ascending) ?_
    intro level
    rw [first.levels, second.levels, (permuted.map _).mem_iff]
  have paired : List.Forall₂ (fun row other : Row => row.level = other.level) rows more :=
    List.forall₂_map_left_iff.mp (List.forall₂_map_right_iff.mp (List.forall₂_eq_eq_eq ▸ levels))
  obtain ⟨length, pairs⟩ := List.forall₂_iff_zip.mp paired
  refine List.forall₂_iff_zip.mpr ⟨length, fun {row other} inZip => ?_⟩
  have ⟨inRows, inMore⟩ := List.of_mem_zip inZip
  have level : row.level = other.level := pairs inZip
  have gathers := first.gathers row inRows
  rw [level] at gathers
  exact gathers.rearranged _ _ (permuted.filter _) (fun origin member => exact origin (List.mem_filter.mp member).1)
    row other level (second.gathers other inMore)

theorem Row.Rearranged.group?_eq (row other : Row) (rearranged : row.Rearranged other) (column : String) :
    row.group? column = other.group? column := by
  have cells := rearranged.cells column
  unfold Row.group?
  generalize row.cell? column = held at cells
  generalize other.cell? column = otherHeld at cells
  cases cells with
  | same => rfl
  | lists => rfl

theorem Alignment.align_rearranged (rows others : List Row) (rearranged : List.Forall₂ Row.Rearranged rows others) :
    List.Forall₂ Row.Rearranged (align rows) (align others) := by
  have keys (column : String) : groupKeys? rows column = groupKeys? others column := by
    refine groupKeys?_of_groups rows column others ?_
    refine List.forall₂_eq_eq_eq ▸ List.forall₂_map_left_iff.mpr (List.forall₂_map_right_iff.mpr ?_)
    exact rearranged.imp fun row other pair => pair.group?_eq row other column
  have holds (column : String) :
      (∃ row ∈ rows, column ∈ row.columns.keys) ↔ ∃ row ∈ others, column ∈ row.columns.keys := by
    constructor
    · rintro ⟨row, member, listed⟩
      obtain ⟨other, inOthers, pair⟩ := exists_of_forall₂ _ rows others rearranged row member
      exact ⟨other, inOthers, (pair.columns column).mp listed⟩
    · rintro ⟨other, member, listed⟩
      obtain ⟨row, inRows, pair⟩ := exists_of_forall₂ _ others rows rearranged.flip other member
      exact ⟨row, inRows, (pair.columns column).mpr listed⟩
  obtain ⟨length, pairs⟩ := List.forall₂_iff_zip.mp rearranged
  refine List.forall₂_map_left_iff.mpr (List.forall₂_map_right_iff.mpr (List.forall₂_iff_zip.mpr ⟨length, ?_⟩))
  intro row other inZip
  have ⟨inRows, inOthers⟩ := List.of_mem_zip inZip
  have pair := pairs inZip
  refine ⟨pair.level, pair.features, fun column => ?_, fun column => ?_⟩
  · rw [mem_columns_align rows column _ (List.mem_map_of_mem inRows),
      mem_columns_align others column _ (List.mem_map_of_mem inOthers)]
    exact holds column
  · have cells := pair.cells column
    rw [cell?_alignRow rows column row inRows, cell?_alignRow others column other inOthers, keys column]
    generalize row.cell? column = held at cells
    generalize other.cell? column = otherHeld at cells
    cases cells with
    | same => exact .same _
    | lists items more permuted =>
        simpa using .lists items more permuted

end Results

section Collisions

theorem Cell.mem_scalars (cells : List Cell) (value : Scalar) :
    value ∈ cells.filterMap scalar? ↔ .scalar value ∈ cells := by
  rw [List.mem_filterMap]
  constructor
  · rintro ⟨cell, member, own⟩
    cases cell with
    | scalar other =>
        cases own
        exact member
    | list items => cases own
    | group members => cases own
  · exact fun member => ⟨_, member, rfl⟩

theorem Cell.valuesAt_subset (cells others : List Cell) (within : cells ⊆ others) (key : String) :
    valuesAt cells key ⊆ valuesAt others key :=
  List.filterMap_subset _ (List.filterMap_subset _ within)

namespace Opposed

theorem mono (cells others : List Cell) (within : cells ⊆ others) (opposed : Opposed cells) : Opposed others := by
  cases opposed with
  | kinds left right inLeft inRight different => exact .kinds left right (within inLeft) (within inRight) different
  | scalars left right inLeft inRight different => exact .scalars left right (within inLeft) (within inRight) different
  | texts key text other inText inOther different =>
      have values := Cell.valuesAt_subset cells others within key
      exact .texts key text other (values inText) (values inOther) different

theorem conflict (cells : List Cell) (exact : ∀ cell ∈ cells, cell.floats = []) (opposed : Opposed cells) :
    Conflict cells := by
  cases opposed with
  | kinds left right inLeft inRight different => exact .kinds left right inLeft inRight different
  | scalars left right inLeft inRight different =>
      refine .scalars fun agreed => ?_
      have symmetric : Std.Symm fun earlier later : Scalar => (earlier == later) = true := ⟨Scalar.beq_symm⟩
      have same := agreed.forall ((Cell.mem_scalars cells left).mpr inLeft) ((Cell.mem_scalars cells right).mpr inRight)
        different
      exact different ((left.beq_iff_eq right (Cell.exact_scalar cells exact left inLeft)).mp same)
  | texts key text other inText inOther different =>
      refine .key key ?_
      cases other with
      | text word => exact .texts text word inText inOther fun same => different (congrArg Scalar.text same.symm)
      | integer value => exact .mixed text _ inText inOther rfl
      | float value => exact .mixed text _ inText inOther rfl

end Opposed

-- A key's value that is refused is opposed to an earlier one, or the integers have grown too large.
theorem Total.opposed_or_overflow (values : List Scalar) (held incoming : Scalar) (total : Total values (some held))
    (exact : ∀ value ∈ values ++ [incoming], value.float? = none) (clash : Clash (values ++ [incoming])) :
    (∃ text other, .text text ∈ values ++ [incoming] ∧ other ∈ values ++ [incoming] ∧ other ≠ .text text) ∨
      ∃ left right, held = .integer left ∧ incoming = .integer right := by
  have last : incoming ∈ values ++ [incoming] := List.mem_append_right values List.mem_cons_self
  cases total with
  | texts text others agree =>
      refine .inl ⟨text, incoming, List.mem_cons_self, last, ?_⟩
      rintro rfl
      have agreed : Total (.text text :: (others ++ [.text text])) (some (.text text)) :=
        .texts text _ fun other member => (List.mem_append.mp member).elim (agree other) List.mem_singleton.mp
      exact agreed.not_clash _ _ clash
  | numbers first rest sum noText added sums =>
      cases incoming with
      | text text => exact .inl ⟨text, first, last, List.mem_cons_self, noText first List.mem_cons_self text⟩
      | float value => cases exact _ last
      | integer right =>
          obtain ⟨integers, whole⟩ := Scalar.integers_of_numbers (first :: rest)
            (fun value member => exact value (List.mem_append_left _ member)) noText
          obtain ⟨left, rfl, _⟩ := sums integers whole
          exact .inr ⟨left, right, rfl, rfl⟩

theorem Reported.opposed_or_overflow (level : Level) (column : String) (cells : List Cell) (incoming : Cell) (fault : Fault)
    (reported : Reported level column cells incoming fault) (conflict : Conflict (cells ++ [incoming]))
    (exact : ∀ cell ∈ cells ++ [incoming], cell.floats = []) :
    Opposed (cells ++ [incoming]) ∨ ∃ place held value, fault = .overflow place level held value := by
  cases reported with
  | cell held incoming accumulated plain =>
      refine .inl ?_
      obtain ⟨cell, member, notGroup⟩ := plain
      by_contra unopposed
      have kinds : ∀ other ∈ cells ++ [incoming], other.kind ≠ .group := fun other listed grouped =>
        unopposed (.kinds cell other member listed fun same => notGroup (same.trans grouped))
      cases conflict with
      | kinds left right inLeft inRight different => exact unopposed (.kinds left right inLeft inRight different)
      | scalars unequal =>
          refine unequal (List.pairwise_iff_forall_sublist.mpr fun {left right} within => ?_)
          have inLeft := (Cell.mem_scalars _ left).mp (within.subset List.mem_cons_self)
          have inRight := (Cell.mem_scalars _ right).mp (within.subset (.tail _ List.mem_cons_self))
          refine (left.beq_iff_eq right (Cell.exact_scalar _ exact left inLeft)).mpr ?_
          by_contra different
          exact unopposed (.scalars left right inLeft inRight different)
      | key key clash =>
          rw [Cell.valuesAt_of_others _ kinds] at clash
          exact Total.nothing.not_clash _ _ clash
  | key members key held incoming grouped accumulated given clash least =>
      have values : Cell.valuesAt (cells ++ [.group members]) key = Cell.valuesAt cells key ++ [incoming] := by
        simp [given]
      have exactAt := Cell.exact_valuesAt _ exact key
      rw [values] at clash exactAt
      rcases accumulated.opposed_or_overflow _ held incoming exactAt clash with
        ⟨text, other, inText, inOther, different⟩ | ⟨left, right, rfl, rfl⟩
      · rw [← values] at inText inOther
        exact .inl (.texts key text other inText inOther different)
      · exact .inr ⟨_, _, _, rfl⟩

theorem cellsAt_exact (given : List Row) (exact : ∀ row ∈ given, row.floats = []) (level : Level) (column : String) :
    ∀ cell ∈ cellsAt given level column, cell.floats = [] := by
  intro cell member
  obtain ⟨origin, listed, own⟩ := List.mem_filterMap.mp member
  exact origin.exact_cell (exact origin (List.mem_filter.mp listed).1) column cell own

theorem Refused.opposed (given : List Row) (column existing incoming : String) (level : Level)
    (refused : Refused given (.collision column level existing incoming)) (exact : ∀ row ∈ given, row.floats = []) :
    ∃ level column, Opposed (cellsAt given level column) := by
  obtain ⟨before, after, row, column, cell, _, parts, _, held, conflict, _, reported⟩ := refused
  have upTo : cellsAt (before ++ [row]) row.level column = cellsAt before row.level column ++ [cell] := by
    simp [held]
  have within : cellsAt before row.level column ++ [cell] ⊆ cellsAt given row.level column := by
    rw [← upTo, parts, List.append_cons before row after, cellsAt_append (before ++ [row]) after]
    exact List.subset_append_left _ _
  rw [upTo] at conflict
  have exactHere := cellsAt_exact given exact row.level column
  rcases reported.opposed_or_overflow _ _ _ _ _ conflict fun cell member => exactHere cell (within member) with
    opposed | ⟨_, _, _, overflow⟩
  · exact ⟨row.level, column, opposed.mono _ _ within⟩
  · cases overflow

end Collisions

section TwoTables

theorem Scalar.length_leading_le (values : List Scalar) : (leading values).length ≤ values.length :=
  (List.length_filterMap_le _ _).trans (List.takeWhile_prefix _).length_le

theorem Scalar.integers_of_leading (values : List Scalar) (full : values.length ≤ (leading values).length) :
    ∃ integers : List Int64, values = integers.map .integer := by
  induction values with
  | nil => exact ⟨[], rfl⟩
  | cons head rest ih =>
      cases head with
      | integer value =>
          obtain ⟨integers, rfl⟩ := ih (Nat.le_of_succ_le_succ full)
          exact ⟨value :: integers, rfl⟩
      | float value => exact absurd full (Nat.not_succ_le_zero _)
      | text text => exact absurd full (Nat.not_le_of_lt (Nat.lt_succ_of_le (length_leading_le rest)))

-- Two integers overflow in both orders, and one alone never does.
theorem Clash.swap (values others : List Scalar) (single : values.length ≤ 1) (otherSingle : others.length ≤ 1)
    (clash : Clash (values ++ others)) : Clash (others ++ values) := by
  have swapped : ∀ value, value ∈ values ++ others ↔ value ∈ others ++ values := fun _ => List.perm_append_comm.mem_iff
  cases clash with
  | mixed text number inText inNumber noText =>
      exact .mixed text number ((swapped _).mp inText) ((swapped _).mp inNumber) noText
  | texts left right inLeft inRight different =>
      exact .texts left right ((swapped _).mp inLeft) ((swapped _).mp inRight) different
  | overflow part summed leaves =>
      have long : 2 ≤ part.length := by
        match part with
        | [] => exact absurd leaves (by decide)
        | [only] =>
            have low := only.minValue_le_toInt
            have high := only.toInt_le
            simp only [List.map_cons, List.map_nil, List.sum_cons, List.sum_nil] at leaves
            omega
        | _ :: _ :: rest => exact Nat.le_add_left 2 rest.length
      have short : (values ++ others).length ≤ part.length := by
        rw [List.length_append]
        omega
      obtain ⟨integers, same⟩ := Scalar.integers_of_leading _ (short.trans summed.length_le)
      have whole : part = integers := by
        rw [summed.eq_of_length_le ((Scalar.length_leading_le _).trans short), same, Scalar.leading_integers]
      obtain ⟨left, right, rfl, rfl, rfl⟩ := List.map_eq_append_iff.mp same.symm
      refine .overflow (right ++ left) ?_ ?_
      · rw [← List.map_append, Scalar.leading_integers]
      · have swapped : (right ++ left).Perm (left ++ right) := List.perm_append_comm
        rw [(swapped.map (·.toInt)).sum_eq, ← whole]
        exact leaves

theorem Conflict.swap (cells others : List Cell) (single : cells.length ≤ 1) (otherSingle : others.length ≤ 1)
    (conflict : Conflict (cells ++ others)) : Conflict (others ++ cells) := by
  have swapped : (cells ++ others).Perm (others ++ cells) := List.perm_append_comm
  cases conflict with
  | kinds left right inLeft inRight different =>
      exact .kinds left right (swapped.mem_iff.mp inLeft) (swapped.mem_iff.mp inRight) different
  | scalars unequal =>
      refine .scalars fun agreed => unequal ?_
      exact ((swapped.filterMap _).pairwise_iff fun {left right} => Scalar.beq_symm left right).mpr agreed
  | key key clash =>
      have few (cells : List Cell) (single : cells.length ≤ 1) : (Cell.valuesAt cells key).length ≤ 1 :=
        ((List.length_filterMap_le _ _).trans (List.length_filterMap_le _ _)).trans single
      rw [Cell.valuesAt_append] at clash
      exact .key key (by simpa using clash.swap _ _ (few cells single) (few others otherSingle))

theorem cellsAt_single (given : List Row) (single : (given.map (·.level)).Nodup) (level : Level) (column : String) :
    (cellsAt given level column).length ≤ 1 := by
  calc (cellsAt given level column).length
      ≤ (given.filter fun row => row.level = level).length := List.length_filterMap_le _ _
    _ = (given.map (·.level)).count level := by
        rw [List.count, List.countP_map, List.countP_eq_length_filter]
        rfl
    _ ≤ 1 := List.nodup_iff_count_le_one.mp single level

namespace Table

theorem merge_succeeds_iff (tables : List Table) : (∃ table, merge tables = .ok table) ↔
    ∀ level column, ¬ Conflict (cellsAt (tables.flatMap (·.rows)) level column) := by
  constructor
  · rintro ⟨table, merged⟩
    obtain ⟨rows, accepted, rfl⟩ := merge_eq_ok tables table merged
    exact Merged.not_conflict _ rows (mergeRows_valid _ rows accepted)
  · intro free
    cases outcome : merge tables with
    | ok table => exact ⟨table, rfl⟩
    | error fault =>
        have refused := mergeRows_refused _ fault ((merge_eq_error tables fault).mp outcome)
        obtain ⟨level, column, conflict⟩ := refused.conflict
        exact absurd conflict (free level column)

theorem merge_pair_swap (first second : Table) (single : (first.rows.map (·.level)).Nodup)
    (otherSingle : (second.rows.map (·.level)).Nodup) (succeeds : ∃ table, merge [first, second] = .ok table) :
    ∃ table, merge [second, first] = .ok table := by
  have rows (left right : Table) : [left, right].flatMap (·.rows) = left.rows ++ right.rows := by simp
  rw [merge_succeeds_iff, rows] at succeeds ⊢
  intro level column conflict
  rw [cellsAt_append] at conflict
  have swapped := conflict.swap _ _ (cellsAt_single _ otherSingle level column) (cellsAt_single _ single level column)
  exact succeeds level column (by simpa using swapped)

end Table

end TwoTables

-- Any tables without floats in any order, and any two tables of one row for each level.
theorem merge_in_any_order :
    (∀ tables others : List Table, tables.Perm others → (∀ table ∈ tables, table.floats = []) →
      (∀ first second, Table.merge tables = .ok first → Table.merge others = .ok second →
        List.Forall₂ Row.Rearranged first.rows second.rows) ∧
      ∀ column level existing incoming, Table.merge tables = .error (.collision column level existing incoming) →
        ∀ table, Table.merge others ≠ .ok table) ∧
    ∀ first second : Table, (first.rows.map (·.level)).Nodup → (second.rows.map (·.level)).Nodup →
      ((∃ table, Table.merge [first, second] = .ok table) ↔ ∃ table, Table.merge [second, first] = .ok table) := by
  refine ⟨fun tables others permuted exactTables => ?_, fun first second single otherSingle => ?_⟩
  · have exact : ∀ row ∈ tables.flatMap (·.rows), row.floats = [] := by
      intro row member
      obtain ⟨table, listed, inTable⟩ := List.mem_flatMap.mp member
      exact List.flatMap_eq_nil_iff.mp (exactTables table listed) row inTable
    have rows : (tables.flatMap (·.rows)).Perm (others.flatMap (·.rows)) := permuted.flatMap_right _
    refine ⟨fun first second merged otherMerged => ?_, fun column level existing incoming failed table otherMerged => ?_⟩
    · obtain ⟨given, accepted, rfl⟩ := Table.merge_eq_ok tables first merged
      obtain ⟨more, otherAccepted, rfl⟩ := Table.merge_eq_ok others second otherMerged
      exact Alignment.align_rearranged _ _ ((Table.mergeRows_valid _ _ accepted).rearranged _ _ _ _ rows exact
        (Table.mergeRows_valid _ _ otherAccepted))
    · have refused := Table.mergeRows_refused _ _ ((Table.merge_eq_error tables _).mp failed)
      obtain ⟨place, name, opposed⟩ := refused.opposed _ _ _ _ _ exact
      have here : (cellsAt (tables.flatMap (·.rows)) place name).Perm (cellsAt (others.flatMap (·.rows)) place name) :=
        (rows.filter _).filterMap _
      have otherExact : ∀ row ∈ others.flatMap (·.rows), row.floats = [] := fun row member =>
        exact row (rows.mem_iff.mpr member)
      refine (Table.merge_succeeds_iff others).mp ⟨table, otherMerged⟩ place name ?_
      exact (opposed.mono _ _ here.subset).conflict _ (cellsAt_exact _ otherExact place name)
  · exact ⟨Table.merge_pair_swap first second single otherSingle, Table.merge_pair_swap second first otherSingle single⟩

-- Two classes change places, and a third one goes with the first in neither order.
theorem classes_change_places :
    let slots (count : Int64) : Cell := .group (NameMap.ofList [("1st", some (.integer count))])
    let fighter : Table := ⟨[⟨1, ["Surge"],
      NameMap.ofList [("Arms", some (.list ["Axe"])), ("Slots", some (slots 2))]⟩]⟩
    let wizard : Table := ⟨[⟨1, ["School"],
      NameMap.ofList [("Arms", some (.list ["Staff"])), ("Slots", some (slots 3))]⟩]⟩
    let monk : Table := ⟨[⟨1, [], NameMap.ofList [("Arms", some (.scalar (.text "none")))]⟩]⟩
    let both : Table := ⟨[⟨1, ["Surge", "School"],
      NameMap.ofList [("Arms", some (.list ["Axe", "Staff"])), ("Slots", some (slots 5))]⟩]⟩
    Table.merge [fighter, wizard] = .ok both ∧
    (∃ other, Table.merge [wizard, fighter] = .ok other ∧ List.Forall₂ Row.Rearranged both.rows other.rows) ∧
    Table.merge [fighter, monk] = .error (.collision "Arms" 1 "[Axe]" "none") ∧
    ∀ table, Table.merge [monk, fighter] ≠ .ok table := by
  intro slots fighter wizard monk both
  obtain ⟨anyOrder, pair⟩ := merge_in_any_order
  have exact : ∀ table ∈ [fighter, wizard, monk], table.floats = [] := by decide +kernel
  have collided : Table.merge [fighter, monk] = .error (.collision "Arms" 1 "[Axe]" "none") := by decide +kernel
  have merged : Table.merge [fighter, wizard] = .ok both := by decide +kernel
  obtain ⟨other, otherMerged⟩ := (pair fighter wizard (by decide +kernel) (by decide +kernel)).mp ⟨both, merged⟩
  refine ⟨merged, ⟨other, otherMerged, ?_⟩, collided, ?_⟩
  · refine (anyOrder _ _ (.swap wizard fighter []) fun table member => exact table ?_).1 both other merged otherMerged
    exact List.mem_append_left [monk] member
  · refine (anyOrder _ _ (.swap monk fighter []) fun table member => exact table ?_).2 "Arms" 1 "[Axe]" "none" collided
    exact (List.mem_cons.mp member).elim (· ▸ List.mem_cons_self) fun last => .tail _ (.tail _ last)

-- With three tables an overflow depends on the order.
example : let pool (count : Int64) : Table :=
      ⟨[⟨1, [], NameMap.ofList [("Pool", some (.group (NameMap.ofList [("x", some (.integer count))])))]⟩]⟩
    (Table.merge [pool 9223372036854775807, pool 1, pool (-1)]).isOk = false ∧
      (Table.merge [pool 9223372036854775807, pool (-1), pool 1]).isOk = true := by decide +kernel

end ClassProgression
