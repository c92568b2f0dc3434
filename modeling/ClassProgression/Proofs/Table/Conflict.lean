import ClassProgression.Proofs.Table.Pooling
import Mathlib

namespace ClassProgression

namespace Scalar

def integer? : Scalar → Option Int64
  | .integer value => some value
  | _ => none

def isFloat : Scalar → Bool
  | .float _ => true
  | _ => false

def isText : Scalar → Bool
  | .text _ => true
  | _ => false

def leading (values : List Scalar) : List Int64 := (values.takeWhile fun value => !value.isFloat).filterMap integer?

end Scalar

-- Why the values of one key of a group, in the order in which they come, have no total.
inductive Clash (values : List Scalar) : Prop where
  | mixed (text : String) (number : Scalar) (inText : .text text ∈ values) (inNumber : number ∈ values)
      (noText : number.isText = false)
  | texts (left right : String) (inLeft : .text left ∈ values) (inRight : .text right ∈ values)
      (different : left ≠ right)
  -- Summed from left to right, some part of the integers does not fit 64 bits.
  | overflow (part : List Int64) (summed : part <+: Scalar.leading values)
      (leaves : (part.map (·.toInt)).sum < Int64.minValue.toInt ∨ Int64.maxValue.toInt < (part.map (·.toInt)).sum)

inductive Kind where
  | scalar
  | list
  | group
deriving DecidableEq

namespace Cell

def kind : Cell → Kind
  | .scalar _ => .scalar
  | .list _ => .list
  | .group _ => .group

def scalar? : Cell → Option Scalar
  | .scalar value => some value
  | _ => none

def group? : Cell → Option Group
  | .group members => some members
  | _ => none

def valuesAt (cells : List Cell) (key : String) : List Scalar :=
  (cells.filterMap group?).filterMap fun group => (group.get? key).join

end Cell

-- Why the cells of one place, in the order in which they come, do not go together.
inductive Conflict (cells : List Cell) : Prop where
  | kinds (left right : Cell) (inLeft : left ∈ cells) (inRight : right ∈ cells) (different : left.kind ≠ right.kind)
  | scalars (unequal : ¬ (cells.filterMap Cell.scalar?).Pairwise fun earlier later => (earlier == later) = true)
  | key (key : String) (clash : Clash (Cell.valuesAt cells key))

-- Two integers that cannot be added overflow; any other two values collide.
def disagreement (place : String) (level : Level) (held incoming : Scalar) : Fault :=
  match held, incoming with
  | .integer _, .integer _ => .overflow place level held.display incoming.display
  | _, _ => .collision place level held.display incoming.display

-- The fault of a cell that does not go with those before it. Only the keys of groups are added up,
-- so whole cells can only collide.
inductive Reported (level : Level) (column : String) (cells : List Cell) : Cell → Fault → Prop where
  | cell (held incoming : Cell) (accumulated : Pooled cells (some held))
      (plain : ∃ cell ∈ cells ++ [incoming], cell.kind ≠ .group) :
      Reported level column cells incoming (.collision column level held.display incoming.display)
  | key (members : Group) (key : String) (held incoming : Scalar)
      (grouped : ∀ cell ∈ cells ++ [.group members], cell.kind = .group)
      (accumulated : Total (Cell.valuesAt cells key) (some held)) (given : (members.get? key).join = some incoming)
      (clash : Clash (Cell.valuesAt (cells ++ [.group members]) key))
      (least : ∀ other, other < key → ¬ Clash (Cell.valuesAt (cells ++ [.group members]) other)) :
      Reported level column cells (.group members) (disagreement (column ++ "." ++ key) level held incoming)

namespace Scalar

theorem integer_add?_eq_some (left right : Int64) (sum : Scalar) :
    (Scalar.integer left).add? (.integer right) = some sum ↔
      ∃ total : Int64, sum = .integer total ∧ total.toInt = left.toInt + right.toInt := by
  simp only [add?, integerSum?, Option.map_eq_some_iff]
  constructor
  · rintro ⟨total, fits, rfl⟩
    exact ⟨total, rfl, Integer.toInt_signed64 _ _ fits⟩
  · rintro ⟨total, rfl, exact⟩
    exact ⟨total, by rw [← exact, Integer.signed64_toInt], rfl⟩

theorem integers_of_add? (left right : Scalar) (total : Int64) (added : left.add? right = some (.integer total)) :
    (∃ first, left = .integer first) ∧ ∃ second, right = .integer second := by
  cases left <;> cases right <;> simp_all [add?]

theorem integers_of_foldlM (first : Scalar) (rest : List Scalar) (total : Int64)
    (added : rest.foldlM add? first = some (.integer total)) :
    ∃ integers : List Int64, first :: rest = integers.map .integer := by
  induction rest generalizing first with
  | nil =>
      cases added
      exact ⟨[total], rfl⟩
  | cons next rest ih =>
      obtain ⟨middle, stepped, later⟩ := Option.bind_eq_some_iff.mp added
      obtain ⟨integers, same⟩ := ih middle later
      cases integers with
      | nil => cases same
      | cons head tail =>
          obtain ⟨rfl, rfl⟩ := List.cons.inj same
          obtain ⟨⟨start, rfl⟩, second, rfl⟩ := integers_of_add? first next head stepped
          exact ⟨start :: second :: tail, rfl⟩

@[simp]
theorem leading_integers (integers : List Int64) : leading (integers.map .integer) = integers := by
  induction integers with
  | nil => rfl
  | cons head rest ih => simpa [leading, isFloat, integer?] using ih

theorem leading_append (values more : List Scalar) : leading values <+: leading (values ++ more) := by
  refine List.IsPrefix.filterMap integer? ?_
  rw [List.takeWhile_append]
  split
  · exact (List.takeWhile_prefix _).trans (List.prefix_append values _)
  · exact List.prefix_rfl

-- Among numbers the integers before the first float stand at the beginning.
theorem leading_prefix (values : List Scalar) (numbers : ∀ value ∈ values, ∀ text, value ≠ .text text) :
    (leading values).map .integer <+: values := by
  induction values with
  | nil => exact List.prefix_rfl
  | cons head rest ih =>
      have later := ih fun value member => numbers value (List.mem_cons_of_mem head member)
      cases head with
      | text text => exact absurd rfl (numbers _ List.mem_cons_self text)
      | float value => exact List.nil_prefix
      | integer value =>
          have opened : leading (.integer value :: rest) = value :: leading rest := by
            simp [leading, isFloat, integer?]
          rw [opened, List.map_cons]
          exact (List.prefix_cons_inj _).mpr later

-- Agreement with a common value. No number that is none takes part in it.
theorem beq_of_common (common left right : Scalar) (first : (common == left) = true)
    (second : (common == right) = true) : (left == right) = true := by
  cases common with
  | integer value =>
      cases left with
      | integer left =>
          cases right with
          | integer right =>
              have toLeft : value = left := eq_of_beq (show (value == left) = true from first)
              rw [← toLeft]
              exact second
          | float right => cases second
          | text right => cases second
      | float left => cases first
      | text left => cases first
  | float value =>
      cases left with
      | float left =>
          cases right with
          | float right =>
              have toLeft : (left == value) = true := BEq.symm (show (value == left) = true from first)
              have toRight : (value == right) = true := second
              exact show (left == right) = true from BEq.trans toLeft toRight
          | integer right => cases second
          | text right => cases second
      | integer left => cases first
      | text left => cases first
  | text value =>
      rw [eq_of_text_beq value left first, eq_of_text_beq value right second]
      exact beq_self_eq_true value

end Scalar

theorem Clash.append (values more : List Scalar) (clash : Clash values) : Clash (values ++ more) := by
  cases clash with
  | mixed text number inText inNumber noText =>
      exact .mixed text number (List.mem_append_left more inText) (List.mem_append_left more inNumber) noText
  | texts left right inLeft inRight different =>
      exact .texts left right (List.mem_append_left more inLeft) (List.mem_append_left more inRight) different
  | overflow part summed leaves => exact .overflow part (summed.trans (Scalar.leading_append values more)) leaves

namespace Total

-- Every part of the integers in a total has been added up on the way, so it fits.
theorem not_clash (values : List Scalar) (held : Option Scalar) (total : Total values held) : ¬ Clash values := by
  have zero : ¬ (([] : List Int).sum < Int64.minValue.toInt ∨ Int64.maxValue.toInt < ([] : List Int).sum) := by decide
  intro clash
  cases total with
  | nothing =>
      cases clash with
      | mixed text number inText _ _ => cases inText
      | texts left right inLeft _ _ => cases inLeft
      | overflow part summed leaves =>
          rw [List.prefix_nil.mp summed] at leaves
          exact zero leaves
  | texts text others agree =>
      have all : ∀ value ∈ .text text :: others, value = .text text := by
        intro value member
        rcases List.mem_cons.mp member with rfl | later
        · rfl
        · exact agree value later
      cases clash with
      | mixed other number _ inNumber noText =>
          rw [all number inNumber] at noText
          cases noText
      | texts left right inLeft inRight different =>
          have same := (all _ inLeft).trans (all _ inRight).symm
          exact different (Scalar.text.inj same)
      | overflow part summed leaves =>
          have none : Scalar.leading (.text text :: others) = [] := by
            refine List.filterMap_eq_nil_iff.mpr fun value member => ?_
            rw [all value ((List.takeWhile_prefix _).subset member)]
            rfl
          rw [none] at summed
          rw [List.prefix_nil.mp summed] at leaves
          exact zero leaves
  | numbers first rest sum noText added exact =>
      cases clash with
      | mixed text number inText _ _ => exact noText _ inText text rfl
      | texts left right inLeft _ _ => exact noText _ inLeft left rfl
      | overflow part summed leaves =>
          obtain ⟨later, whole⟩ := (summed.map Scalar.integer).trans (Scalar.leading_prefix _ noText)
          cases part with
          | nil => exact zero leaves
          | cons head tail =>
              rw [List.map_cons, List.cons_append, List.cons.injEq] at whole
              obtain ⟨rfl, rfl⟩ := whole
              rw [List.foldlM_append] at added
              obtain ⟨middle, partly, _⟩ := Option.bind_eq_some_iff.mp added
              obtain ⟨total, _, sums⟩ := Scalar.foldlM_add?_integers head tail middle partly
              have low := total.minValue_le_toInt
              have high := total.toInt_le
              simp only [List.map_cons, List.sum_cons] at leaves
              omega

end Total

theorem Row.combineMembers_fault (column : String) (level : Level) (key : String) (held : Option Scalar)
    (incoming : Scalar) (fault : Fault)
    (refused : combineMembers column level key held (some incoming) = .error fault) :
    ∃ value, held = some value ∧ fault = disagreement (column ++ "." ++ key) level value incoming ∧
      value.add? incoming = none ∧
      ((∃ left right, value = .integer left ∧ incoming = .integer right) ∨ (value == incoming) = false) := by
  cases held with
  | none => cases refused
  | some value =>
      refine ⟨value, rfl, ?_⟩
      simp only [combineMembers] at refused
      split at refused
      · cases refused
      · rename_i noSum
        split at refused
        · rename_i left right
          cases refused
          exact ⟨rfl, noSum, .inl ⟨left, right, rfl, rfl⟩⟩
        · rename_i notIntegers
          split at refused
          · cases refused
          · rename_i unequal
            cases refused
            refine ⟨?_, noSum, .inr (by simpa using unequal)⟩
            unfold disagreement
            split
            · rename_i left right
              exact (notIntegers left right rfl rfl).elim
            · rfl

theorem Total.clash_of_fault (column : String) (level : Level) (key : String) (values : List Scalar)
    (held : Option Scalar) (total : Total values held) (incoming : Scalar) (fault : Fault)
    (refused : Row.combineMembers column level key held (some incoming) = .error fault) :
    Clash (values ++ [incoming]) ∧
      ∃ value, held = some value ∧ fault = disagreement (column ++ "." ++ key) level value incoming := by
  obtain ⟨value, present, named, noSum, reason⟩ :=
    Row.combineMembers_fault column level key held incoming fault refused
  refine ⟨?_, value, present, named⟩
  have last : incoming ∈ values ++ [incoming] := List.mem_append_right values List.mem_cons_self
  cases total with
  | nothing => cases present
  | texts text others agree =>
      cases present
      have first : .text text ∈ (.text text :: others) ++ [incoming] := List.mem_cons_self
      cases incoming with
      | integer number => exact .mixed text _ first last rfl
      | float number => exact .mixed text _ first last rfl
      | text other =>
          refine .texts text other first last ?_
          rintro rfl
          rcases reason with ⟨_, _, wrong, _⟩ | unequal
          · cases wrong
          · exact Bool.false_ne_true (unequal.symm.trans (beq_self_eq_true text))
  | numbers first rest _ noText added exact =>
      cases present
      have start : first ∈ (first :: rest) ++ [incoming] := List.mem_cons_self
      have number : first.isText = false := by
        cases first with
        | text text => exact absurd rfl (noText _ List.mem_cons_self text)
        | integer value => rfl
        | float value => rfl
      by_cases worded : ∃ text, incoming = .text text
      · obtain ⟨text, rfl⟩ := worded
        exact .mixed text first last start number
      · have sumNumber := Scalar.foldlM_add?_ne_text first rest value (noText first List.mem_cons_self) added
        obtain ⟨left, right, rfl, rfl⟩ :=
          Scalar.integers_of_add?_none value incoming noSum sumNumber fun text same => worded ⟨text, same⟩
        obtain ⟨integers, same⟩ := Scalar.integers_of_foldlM first rest left added
        obtain ⟨total, sumIs, sums⟩ := exact integers same
        cases sumIs
        have all : Scalar.leading ((first :: rest) ++ [.integer right]) = integers ++ [right] := by
          rw [same, ← List.map_singleton, ← List.map_append, Scalar.leading_integers]
        refine .overflow (integers ++ [right]) (all ▸ List.prefix_rfl) ?_
        have outside : Integer.signed64? (left.toInt + right.toInt) = none := Option.map_eq_none_iff.mp noSum
        rw [Integer.signed64_eq_none] at outside
        simpa [← sums] using outside

namespace Cell

@[simp]
theorem valuesAt_append (cells more : List Cell) (key : String) :
    valuesAt (cells ++ more) key = valuesAt cells key ++ valuesAt more key := by
  simp [valuesAt]

@[simp]
theorem valuesAt_groups (groups : List Group) (key : String) :
    valuesAt (groups.map .group) key = groups.filterMap fun group => (group.get? key).join := by
  have all : (groups.map Cell.group).filterMap group? = groups := by
    rw [List.filterMap_map]
    exact List.filterMap_some
  rw [valuesAt, all]

@[simp]
theorem valuesAt_group (members : Group) (key : String) :
    valuesAt [.group members] key = (members.get? key).join.toList := by
  cases found : (members.get? key).join <;> simp [valuesAt, group?, found]

theorem scalars_of_others (cells : List Cell) (others : ∀ cell ∈ cells, cell.kind ≠ .scalar) :
    cells.filterMap scalar? = [] := by
  refine List.filterMap_eq_nil_iff.mpr fun cell member => ?_
  cases cell with
  | scalar value => exact absurd rfl (others _ member)
  | list items => rfl
  | group members => rfl

theorem valuesAt_of_others (cells : List Cell) (others : ∀ cell ∈ cells, cell.kind ≠ .group) (key : String) :
    valuesAt cells key = [] := by
  have none : cells.filterMap group? = [] := by
    refine List.filterMap_eq_nil_iff.mpr fun cell member => ?_
    cases cell with
    | group members => exact absurd rfl (others _ member)
    | scalar value => rfl
    | list items => rfl
  rw [valuesAt, none, List.filterMap_nil]

end Cell

theorem Conflict.append (cells more : List Cell) (conflict : Conflict cells) : Conflict (cells ++ more) := by
  cases conflict with
  | kinds left right inLeft inRight different =>
      exact .kinds left right (List.mem_append_left more inLeft) (List.mem_append_left more inRight) different
  | scalars unequal =>
      refine .scalars fun agreed => unequal ?_
      rw [List.filterMap_append] at agreed
      exact (List.pairwise_append.mp agreed).1
  | key key clash => exact .key key (by simpa using clash.append _ _)

namespace Pooled

theorem kind_eq (cells : List Cell) (held : Cell) (pooled : Pooled cells (some held)) :
    cells ≠ [] ∧ ∀ cell ∈ cells, cell.kind = held.kind := by
  cases pooled with
  | lists first rest => exact ⟨by simp, List.forall_mem_map.mpr fun _ _ => rfl⟩
  | scalars first rest agree => exact ⟨by simp, List.forall_mem_map.mpr fun _ _ => rfl⟩
  | groups first rest members known totals => exact ⟨by simp, List.forall_mem_map.mpr fun _ _ => rfl⟩

theorem not_conflict (cells : List Cell) (held : Option Cell) (pooled : Pooled cells held) : ¬ Conflict cells := by
  intro conflict
  cases conflict with
  | kinds left right inLeft inRight different =>
      cases held with
      | none =>
          cases pooled
          cases inLeft
      | some cell =>
          obtain ⟨_, same⟩ := pooled.kind_eq cells cell
          exact different ((same left inLeft).trans (same right inRight).symm)
  | scalars unequal =>
      refine unequal ?_
      cases pooled with
      | nothing => exact .nil
      | lists first rest => rw [Cell.scalars_of_others _ (by simp [Cell.kind])]; exact .nil
      | groups first rest members known totals => rw [Cell.scalars_of_others _ (by simp [Cell.kind])]; exact .nil
      | scalars first rest agree =>
          have all : ((first :: rest).map Cell.scalar).filterMap Cell.scalar? = first :: rest := by
            rw [List.filterMap_map]
            exact List.filterMap_some
          rw [all]
          refine .cons agree ?_
          have inOrder : rest.Pairwise fun _ _ => True := List.pairwise_of_forall fun _ _ => trivial
          refine inOrder.imp_of_mem fun {left right} inLeft inRight _ => ?_
          exact Scalar.beq_of_common first left right (agree left inLeft) (agree right inRight)
  | key key clash =>
      cases pooled with
      | nothing => exact Total.nothing.not_clash _ _ clash
      | lists first rest =>
          rw [Cell.valuesAt_of_others _ (by simp [Cell.kind])] at clash
          exact Total.nothing.not_clash _ _ clash
      | scalars first rest agree =>
          rw [Cell.valuesAt_of_others _ (by simp [Cell.kind])] at clash
          exact Total.nothing.not_clash _ _ clash
      | groups first rest members known totals =>
          rw [Cell.valuesAt_groups] at clash
          exact (totals key).not_clash _ _ clash

end Pooled

theorem Row.combineCells_fault (level : Level) (column : String) (held : Option Cell) (incoming : Cell)
    (fault : Fault) (refused : combineCells level column held (some incoming) = .error fault) :
    ∃ cell, held = some cell ∧
      ((∃ first second, cell = .group first ∧ incoming = .group second ∧
        first.absorb (combineMembers column level) second = .error fault) ∨
      (fault = .collision column level cell.display incoming.display ∧
        (cell.kind ≠ incoming.kind ∨
          ∃ first second, cell = .scalar first ∧ incoming = .scalar second ∧ (first == second) = false))) := by
  have collided (cell : Cell) (differs : (cell == incoming) = false)
      (result : combineCells level column (some cell) (some incoming) =
        if cell == incoming then .ok (some cell)
        else .error (.collision column level cell.display incoming.display))
      (present : held = some cell) : fault = .collision column level cell.display incoming.display := by
    rw [present, result, differs] at refused
    exact (Except.error.inj refused).symm
  cases held with
  | none => cases incoming <;> cases refused
  | some cell =>
      refine ⟨cell, rfl, ?_⟩
      cases cell with
      | list first =>
          cases incoming with
          | list second => cases refused
          | scalar second => exact .inr ⟨collided _ rfl rfl rfl, .inl (by simp [Cell.kind])⟩
          | group second => exact .inr ⟨collided _ rfl rfl rfl, .inl (by simp [Cell.kind])⟩
      | group first =>
          cases incoming with
          | list second => exact .inr ⟨collided _ rfl rfl rfl, .inl (by simp [Cell.kind])⟩
          | scalar second => exact .inr ⟨collided _ rfl rfl rfl, .inl (by simp [Cell.kind])⟩
          | group second =>
              cases absorbed : first.absorb (combineMembers column level) second with
              | ok members => rw [combineCells, absorbed] at refused; cases refused
              | error own =>
                  rw [combineCells, absorbed] at refused
                  cases refused
                  exact .inl ⟨first, second, rfl, rfl, absorbed⟩
      | scalar first =>
          cases incoming with
          | list second => exact .inr ⟨collided _ rfl rfl rfl, .inl (by simp [Cell.kind])⟩
          | group second => exact .inr ⟨collided _ rfl rfl rfl, .inl (by simp [Cell.kind])⟩
          | scalar second =>
              cases same : first == second with
              | false => exact .inr ⟨collided _ same rfl rfl, .inr ⟨first, second, rfl, rfl, same⟩⟩
              | true =>
                  have kept : combineCells level column (some (.scalar first)) (some (.scalar second)) =
                      .ok (some (.scalar first)) := if_pos same
                  rw [kept] at refused
                  cases refused

-- Two groups are refused for the least key at which they do not go together.
theorem Pooled.reported_of_groups (level : Level) (column : String) (cells : List Cell) (first second : Group)
    (pooled : Pooled cells (some (.group first))) (fault : Fault)
    (refused : first.absorb (Row.combineMembers column level) second = .error fault) :
    Conflict (cells ++ [.group second]) ∧ Reported level column cells (.group second) fault := by
  have grouped : ∀ cell ∈ cells ++ [.group second], cell.kind = .group := by
    intro cell member
    rcases List.mem_append.mp member with earlier | last
    · exact (pooled.kind_eq cells _).2 cell earlier
    · rw [List.mem_singleton.mp last]
      rfl
  have totals : ∀ key, Total (Cell.valuesAt cells key) (first.get? key).join := by
    cases pooled with
    | groups start rest _ known totals =>
        intro key
        rw [Cell.valuesAt_groups]
        exact totals key
  obtain ⟨key, own, below⟩ := (NameMap.absorb_eq_error _ first second fault).mp refused
  obtain ⟨left, right, inFirst, inSecond, failed⟩ := (NameMap.absorbAt_eq_error _ key _ _ fault).mp own
  cases right with
  | none => simp at failed
  | some incoming =>
      have total := totals key
      rw [inFirst, Option.join_some] at total
      have given : (second.get? key).join = some incoming := by rw [inSecond, Option.join_some]
      obtain ⟨clash, held, rfl, rfl⟩ := total.clash_of_fault column level key _ _ incoming fault failed
      have here : Clash (Cell.valuesAt (cells ++ [.group second]) key) := by simpa [given] using clash
      refine ⟨.key key here, .key second key held incoming grouped total given here fun other less => ?_⟩
      obtain ⟨result, accepted⟩ := below other less
      simpa using (total_absorb column level other _ _ _ accepted _ (totals other)).not_clash _ _

theorem Pooled.reported (level : Level) (column : String) (cells : List Cell) (held : Option Cell)
    (pooled : Pooled cells held) (incoming : Cell) (fault : Fault)
    (refused : Row.combineCells level column held (some incoming) = .error fault) :
    Conflict (cells ++ [incoming]) ∧ Reported level column cells incoming fault := by
  obtain ⟨cell, rfl, reason⟩ := Row.combineCells_fault level column held incoming fault refused
  obtain ⟨inhabited, same⟩ := pooled.kind_eq cells cell
  have last : incoming ∈ cells ++ [incoming] := List.mem_append_right cells List.mem_cons_self
  rcases reason with ⟨first, second, rfl, rfl, absorbed⟩ | ⟨rfl, differ | ⟨first, second, rfl, rfl, unequal⟩⟩
  · exact pooled.reported_of_groups level column cells first second fault absorbed
  · obtain ⟨earlier, member⟩ := List.exists_mem_of_ne_nil cells inhabited
    have present : earlier ∈ cells ++ [incoming] := List.mem_append_left [incoming] member
    refine ⟨.kinds earlier incoming present last (by rwa [same earlier member]), .cell cell incoming pooled ?_⟩
    by_cases grouped : incoming.kind = .group
    · exact ⟨earlier, present, by rw [same earlier member]; exact fun other => differ (other.trans grouped.symm)⟩
    · exact ⟨incoming, last, grouped⟩
  · refine ⟨.scalars ?_, .cell _ _ pooled ⟨_, last, by simp [Cell.kind]⟩⟩
    cases pooled with
    | scalars _ rest agree =>
        intro agreed
        rw [List.filterMap_append, List.map_cons, List.filterMap_cons] at agreed
        have met := (List.pairwise_cons.mp agreed).1 second (List.mem_append_right _ List.mem_cons_self)
        exact Bool.false_ne_true (unequal.symm.trans met)

theorem Total.unique (values : List Scalar) (left right : Option Scalar) (first : Total values left)
    (second : Total values right) : left = right := by
  cases first with
  | nothing =>
      cases second
      rfl
  | texts text others agree =>
      cases second with
      | texts _ _ _ => rfl
      | numbers _ _ sum noText added exact => exact absurd rfl (noText _ List.mem_cons_self text)
  | numbers start rest sum noText added exact =>
      cases second with
      | texts text _ _ => exact absurd rfl (noText _ List.mem_cons_self text)
      | numbers _ _ other _ otherAdded _ => exact added.symm.trans otherAdded

theorem Group.eq_of_keys (left right : Group) (keys : ∀ key, key ∈ left.keys ↔ key ∈ right.keys)
    (values : ∀ key, (left.get? key).join = (right.get? key).join) : left = right := by
  refine NameMap.eq_of_get? _ _ fun key => ?_
  have known := keys key
  rw [NameMap.mem_keys, NameMap.mem_keys] at known
  have value := values key
  cases inLeft : left.get? key <;> cases inRight : right.get? key <;> simp_all

-- What some cells come to is determined by them, so that one may speak of the value accumulated so far.
theorem Pooled.unique (cells : List Cell) (left right : Option Cell) (first : Pooled cells left)
    (second : Pooled cells right) : left = right := by
  generalize same : cells = others at second
  cases first with
  | nothing =>
      cases second with
      | nothing => rfl
      | lists _ _ => cases same
      | scalars _ _ _ => cases same
      | groups _ _ _ _ _ => cases same
  | lists start rest =>
      cases second with
      | nothing => cases same
      | lists other more =>
          have parts := (List.map_inj_right fun _ _ => Cell.list.inj).mp same
          rw [parts]
      | scalars _ _ _ => cases List.head_eq_of_cons_eq same
      | groups _ _ _ _ _ => cases List.head_eq_of_cons_eq same
  | scalars start rest agree =>
      cases second with
      | nothing => cases same
      | lists _ _ => cases List.head_eq_of_cons_eq same
      | scalars other more _ => exact congrArg some (List.head_eq_of_cons_eq same)
      | groups _ _ _ _ _ => cases List.head_eq_of_cons_eq same
  | groups start rest members known totals =>
      cases second with
      | nothing => cases same
      | lists _ _ => cases List.head_eq_of_cons_eq same
      | scalars _ _ _ => cases List.head_eq_of_cons_eq same
      | groups other more otherMembers otherKnown otherTotals =>
          have parts := (List.map_inj_right fun _ _ => Cell.group.inj).mp same
          rw [← parts] at otherKnown otherTotals
          exact congrArg (fun members => some (Cell.group members)) (Group.eq_of_keys _ _
            (fun key => (known key).trans (otherKnown key).symm)
            fun key => (totals key).unique _ _ _ (otherTotals key))

theorem Reported.unique (level : Level) (column : String) (cells : List Cell) (incoming : Cell)
    (fault other : Fault) (first : Reported level column cells incoming fault)
    (second : Reported level column cells incoming other) : fault = other := by
  cases first with
  | cell held incoming accumulated plain =>
      obtain ⟨cell, member, notGroup⟩ := plain
      cases second with
      | cell _ _ otherAccumulated _ =>
          cases accumulated.unique _ _ _ otherAccumulated
          rfl
      | key _ _ _ _ grouped _ _ _ _ => exact absurd (grouped cell member) notGroup
  | key members key held incoming grouped accumulated given clash least =>
      cases second with
      | cell _ _ _ plain =>
          obtain ⟨cell, member, notGroup⟩ := plain
          exact absurd (grouped cell member) notGroup
      | key _ otherKey otherHeld otherIncoming _ otherAccumulated otherGiven otherClash otherLeast =>
          have same : otherKey = key :=
            NameMap.least_unique _ otherKey key otherClash clash otherLeast least
          subst same
          cases accumulated.unique _ _ _ otherAccumulated
          cases given.symm.trans otherGiven
          rfl

end ClassProgression
