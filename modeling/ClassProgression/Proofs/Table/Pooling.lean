import ClassProgression.NameMap.Lemmas
import ClassProgression.Table.Merge
import Mathlib.Algebra.Ring.Int.Defs

namespace ClassProgression

-- What the values of one key of a group come to.
inductive Total : List Scalar → Option Scalar → Prop where
  | nothing : Total [] none
  | texts (text : String) (others : List Scalar) (agree : ∀ other ∈ others, other = .text text) :
      Total (.text text :: others) (some (.text text))
  | numbers (first : Scalar) (rest : List Scalar) (sum : Scalar)
      (noText : ∀ value ∈ first :: rest, ∀ text, value ≠ .text text)
      (added : rest.foldlM Scalar.add? first = some sum)
      (exact : ∀ integers : List Int64, first :: rest = integers.map .integer →
        ∃ total, sum = .integer total ∧ total.toInt = (integers.map (·.toInt)).sum) :
      Total (first :: rest) (some sum)

-- What the cells of one place come to.
inductive Pooled : List Cell → Option Cell → Prop where
  | nothing : Pooled [] none
  | lists (first : List String) (rest : List (List String)) :
      Pooled ((first :: rest).map .list) (some (.list (first :: rest).flatten))
  | scalars (first : Scalar) (rest : List Scalar) (agree : ∀ other ∈ rest, (first == other) = true) :
      Pooled ((first :: rest).map .scalar) (some (.scalar first))
  | groups (first : Group) (rest : List Group) (members : Group)
      (known : ∀ key, key ∈ members.keys ↔ ∃ group ∈ first :: rest, key ∈ group.keys)
      (totals : ∀ key, Total ((first :: rest).filterMap fun group => (group.get? key).join) (members.get? key).join) :
      Pooled ((first :: rest).map .group) (some (.group members))

namespace Scalar

@[simp]
theorem add?_text (value : Scalar) (text : String) : value.add? (.text text) = none := by
  cases value <;> rfl

@[simp]
theorem text_add? (text : String) (value : Scalar) : (Scalar.text text).add? value = none := by
  cases value <;> rfl

theorem add?_ne_text (left right sum : Scalar) (added : left.add? right = some sum) (text : String) :
    sum ≠ .text text := by
  cases left <;> cases right <;> simp only [add?, Option.map_eq_some_iff, Option.some.injEq] at added <;> grind

-- Two numbers without a sum are integers.
theorem integers_of_add?_none (left right : Scalar) (noSum : left.add? right = none)
    (leftNumber : ∀ text, left ≠ .text text) (rightNumber : ∀ text, right ≠ .text text) :
    ∃ first second, left = .integer first ∧ right = .integer second := by
  cases left with
  | text text => exact absurd rfl (leftNumber text)
  | integer first =>
      cases right with
      | text text => exact absurd rfl (rightNumber text)
      | integer second => exact ⟨first, second, rfl, rfl⟩
      | float second => cases noSum
  | float first =>
      cases right with
      | text text => exact absurd rfl (rightNumber text)
      | integer second => cases noSum
      | float second => cases noSum

theorem foldlM_add?_ne_text (first : Scalar) (rest : List Scalar) (sum : Scalar)
    (number : ∀ text, first ≠ .text text) (added : rest.foldlM add? first = some sum) (text : String) :
    sum ≠ .text text := by
  induction rest generalizing first with
  | nil =>
      cases added
      exact number text
  | cons next rest ih =>
      obtain ⟨middle, stepped, later⟩ := Option.bind_eq_some_iff.mp added
      exact ih middle (add?_ne_text first next middle stepped) later

-- As long as every sum fits, integers are added exactly.
theorem foldlM_add?_integers (first : Int64) (rest : List Int64) (sum : Scalar)
    (added : (rest.map .integer).foldlM add? (.integer first) = some sum) :
    ∃ total, sum = .integer total ∧ total.toInt = first.toInt + (rest.map (·.toInt)).sum := by
  induction rest generalizing first with
  | nil =>
      cases added
      exact ⟨first, rfl, by simp⟩
  | cons next rest ih =>
      obtain ⟨middle, stepped, later⟩ := Option.bind_eq_some_iff.mp added
      obtain ⟨exactly, fits, rfl⟩ := Option.map_eq_some_iff.mp stepped
      obtain ⟨total, rfl, sums⟩ := ih exactly later
      refine ⟨total, rfl, ?_⟩
      rw [sums, Integer.toInt_signed64 _ _ fits, List.map_cons, List.sum_cons, Int.add_assoc]

end Scalar

theorem Row.combineMembers_cases (column : String) (level : Level) (key : String) (held incoming : Scalar)
    (next : Option Scalar) (accepted : combineMembers column level key (some held) (some incoming) = .ok next) :
    (∃ sum, held.add? incoming = some sum ∧ next = some sum) ∨
    (held.add? incoming = none ∧ (held == incoming) = true ∧ next = some held ∧
      ¬ ∃ first second, held = .integer first ∧ incoming = .integer second) := by
  simp only [combineMembers] at accepted
  split at accepted
  · rename_i sum added
    exact .inl ⟨sum, added, (Except.ok.inj accepted).symm⟩
  · rename_i noSum
    split at accepted
    · cases accepted
    · rename_i different
      split at accepted
      · rename_i same
        refine .inr ⟨noSum, same, (Except.ok.inj accepted).symm, ?_⟩
        rintro ⟨first, second, rfl, rfl⟩
        exact different first second rfl rfl
      · cases accepted

theorem Scalar.eq_of_text_beq (text : String) (other : Scalar) (same : (Scalar.text text == other) = true) :
    other = .text text := by
  cases other with
  | text other => exact congrArg Scalar.text (eq_of_beq (show (text == other) = true from same)).symm
  | integer value => cases same
  | float value => cases same

namespace Total

theorem of_numbers (first : Scalar) (rest : List Scalar) (sum : Scalar)
    (noText : ∀ value ∈ first :: rest, ∀ text, value ≠ .text text)
    (added : rest.foldlM Scalar.add? first = some sum) : Total (first :: rest) (some sum) := by
  refine .numbers first rest sum noText added ?_
  intro integers same
  cases integers with
  | nil => cases same
  | cons head tail =>
      obtain ⟨rfl, rfl⟩ := List.cons.inj same
      simpa using Scalar.foldlM_add?_integers head tail sum added

theorem single (value : Scalar) : Total [value] (some value) := by
  cases value with
  | text text => exact .texts text [] (by simp)
  | integer value => exact of_numbers _ [] _ (by simp) rfl
  | float value => exact of_numbers _ [] _ (by simp) rfl

theorem add (column : String) (level : Level) (key : String) (values : List Scalar) (held : Option Scalar)
    (total : Total values held) (incoming : Scalar) (next : Option Scalar)
    (accepted : Row.combineMembers column level key held (some incoming) = .ok next) :
    Total (values ++ [incoming]) next := by
  cases total with
  | nothing =>
      rw [← Except.ok.inj accepted]
      exact single incoming
  | texts text others agree =>
      rcases Row.combineMembers_cases column level key _ incoming next accepted with
        ⟨sum, added, _⟩ | ⟨_, same, rfl, _⟩
      · rw [Scalar.text_add?] at added
        cases added
      · refine .texts text (others ++ [incoming]) fun other member => ?_
        rcases List.mem_append.mp member with old | new
        · exact agree other old
        · rw [List.mem_singleton.mp new]
          exact Scalar.eq_of_text_beq text incoming same
  | numbers first rest sum noText added exact =>
      have sumNumber := Scalar.foldlM_add?_ne_text first rest sum (noText first List.mem_cons_self) added
      rcases Row.combineMembers_cases column level key sum incoming next accepted with
        ⟨more, stepped, rfl⟩ | ⟨noSum, same, _, notIntegers⟩
      · have incomingNumber : ∀ text, incoming ≠ .text text := by
          rintro text rfl
          rw [Scalar.add?_text] at stepped
          cases stepped
        refine of_numbers first (rest ++ [incoming]) more ?_ ?_
        · intro value member
          rcases List.mem_append.mp (show value ∈ (first :: rest) ++ [incoming] from member) with old | new
          · exact noText value old
          · rw [List.mem_singleton.mp new]
            exact incomingNumber
        · rw [List.foldlM_append, added]
          simpa using stepped
      · -- A number agrees with no text, and numbers without a sum are refused.
        have incomingNumber : ∀ text, incoming ≠ .text text := by
          rintro text rfl
          cases sum with
          | text other => exact sumNumber other rfl
          | integer value => cases same
          | float value => cases same
        exact absurd (Scalar.integers_of_add?_none sum incoming noSum sumNumber incomingNumber) notIntegers

end Total

@[simp]
theorem Row.combineMembers_none (column : String) (level : Level) (key : String) (held : Option Scalar) :
    combineMembers column level key held none = .ok held := by
  cases held <;> rfl

@[simp]
theorem Row.combineCells_none (level : Level) (column : String) (held : Option Cell) :
    combineCells level column held none = .ok held := by
  rcases held with _ | ⟨_ | _ | _⟩ <;> rfl

theorem Row.combineCells_cases (level : Level) (column : String) (held incoming : Cell) (next : Option Cell)
    (accepted : combineCells level column (some held) (some incoming) = .ok next) :
    (∃ first second, held = .list first ∧ incoming = .list second ∧ next = some (.list (first ++ second))) ∨
    (∃ first second members, held = .group first ∧ incoming = .group second ∧
      first.absorb (combineMembers column level) second = .ok members ∧ next = some (.group members)) ∨
    (∃ first second, held = .scalar first ∧ incoming = .scalar second ∧ (first == second) = true ∧
      next = some (.scalar first)) := by
  have agreed (differs : (held == incoming) = false) (result : combineCells level column (some held) (some incoming) =
      if held == incoming then .ok (some held)
      else .error (.collision column level held.display incoming.display)) : False := by
    rw [result, differs] at accepted
    cases accepted
  cases held with
  | list first =>
      cases incoming with
      | list second => exact .inl ⟨first, second, rfl, rfl, (Except.ok.inj accepted).symm⟩
      | scalar second => exact (agreed rfl rfl).elim
      | group second => exact (agreed rfl rfl).elim
  | group first =>
      cases incoming with
      | group second =>
          cases absorbed : first.absorb (combineMembers column level) second with
          | error fault => rw [combineCells, absorbed] at accepted; cases accepted
          | ok members =>
              rw [combineCells, absorbed] at accepted
              exact .inr (.inl ⟨first, second, members, rfl, rfl, absorbed, (Except.ok.inj accepted).symm⟩)
      | scalar second => exact (agreed rfl rfl).elim
      | list second => exact (agreed rfl rfl).elim
  | scalar first =>
      cases incoming with
      | scalar second =>
          cases same : first == second with
          | false => exact (agreed same rfl).elim
          | true =>
              have kept : combineCells level column (some (.scalar first)) (some (.scalar second)) =
                  .ok (some (.scalar first)) := if_pos same
              exact .inr (.inr ⟨first, second, rfl, rfl, same, Except.ok.inj (accepted.symm.trans kept)⟩)
      | list second => exact (agreed rfl rfl).elim
      | group second => exact (agreed rfl rfl).elim

namespace Pooled

theorem single (cell : Cell) : Pooled [cell] (some cell) := by
  cases cell with
  | scalar value => exact .scalars value [] (by simp)
  | list items => simpa using Pooled.lists items []
  | group members =>
      refine .groups members [] members (by simp) fun key => ?_
      cases found : (members.get? key).join with
      | none => simpa [found] using Total.nothing
      | some value => simpa [found] using Total.single value

theorem total_absorb (column : String) (level : Level) (key : String) (held incoming result : Option (Option Scalar))
    (own : NameMap.absorbAt (Row.combineMembers column level) key held incoming = .ok result)
    (values : List Scalar) (total : Total values held.join) :
    Total (values ++ incoming.join.toList) result.join := by
  have joined := NameMap.absorbAt_join _ key (Row.combineMembers_none column level key) (fun _ => rfl) _ _ _ own
  cases found : incoming.join with
  | none =>
      rw [found, Row.combineMembers_none] at joined
      rw [← Except.ok.inj joined]
      simpa using total
  | some value =>
      rw [found] at joined
      exact total.add column level key values _ value _ joined

theorem add (level : Level) (column : String) (cells : List Cell) (held : Option Cell) (pooled : Pooled cells held)
    (incoming : Cell) (next : Option Cell)
    (accepted : Row.combineCells level column held (some incoming) = .ok next) :
    Pooled (cells ++ [incoming]) next := by
  cases pooled with
  | nothing =>
      rw [← Except.ok.inj accepted]
      exact single incoming
  | lists first rest =>
      rcases Row.combineCells_cases level column _ incoming next accepted with
        ⟨_, more, same, rfl, rfl⟩ | ⟨_, _, _, same, _⟩ | ⟨_, _, same, _⟩
      · cases same
        simpa using Pooled.lists first (rest ++ [more])
      · cases same
      · cases same
  | scalars first rest agree =>
      rcases Row.combineCells_cases level column _ incoming next accepted with
        ⟨_, _, same, _⟩ | ⟨_, _, _, same, _⟩ | ⟨_, more, same, rfl, agrees, rfl⟩
      · cases same
      · cases same
      · cases same
        have all : ∀ other ∈ rest ++ [more], (first == other) = true := by
          intro other member
          rcases List.mem_append.mp member with old | new
          · exact agree other old
          · rw [List.mem_singleton.mp new]
            exact agrees
        simpa using Pooled.scalars first (rest ++ [more]) all
  | groups first rest members known totals =>
      rcases Row.combineCells_cases level column _ incoming next accepted with
        ⟨_, _, same, _⟩ | ⟨_, more, joined, same, rfl, absorbed, rfl⟩ | ⟨_, _, same, _⟩
      · cases same
      · cases same
        have keys : ∀ key, key ∈ joined.keys ↔ ∃ group ∈ first :: (rest ++ [more]), key ∈ group.keys := by
          intro key
          rw [NameMap.mem_keys_absorb _ _ _ _ absorbed, known]
          simp [or_assoc, or_and_right, exists_or]
        have sums : ∀ key, Total ((first :: (rest ++ [more])).filterMap fun group => (group.get? key).join)
            (joined.get? key).join := by
          intro key
          have own := (NameMap.absorb_eq_ok _ members more joined).mp absorbed key
          have total := total_absorb column level key _ _ _ own _ (totals key)
          rw [← List.cons_append, List.filterMap_append]
          cases found : (more.get? key).join <;> simpa [found] using total
        simpa using Pooled.groups first (rest ++ [more]) joined keys sums
      · cases same

end Pooled

end ClassProgression
