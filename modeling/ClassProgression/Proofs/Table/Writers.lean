import ClassProgression.Proofs.Table.Alignment
import ClassProgression.Proofs.Table.Landing
import Mathlib.Data.List.DropRight

namespace ClassProgression

namespace Landing

-- Scalars and groups write every level from their own on, a list writes its own level only.
def writes (level : Nat) (landing : Landing) : Bool :=
  match landing.cell with
  | .list _ => decide (landing.level = level)
  | _ => decide (landing.level ≤ level)

def isList (landing : Landing) : Bool :=
  match landing.cell with
  | .list _ => true
  | _ => false

def isGroup (landing : Landing) : Bool :=
  match landing.cell with
  | .group _ => true
  | _ => false

def items (landing : Landing) : List String :=
  match landing.cell with
  | .list items => items
  | _ => []

def members (landing : Landing) : Group :=
  match landing.cell with
  | .group members => members
  | _ => {}

variable (level : Nat) (landings : List Landing)

def writers : List Landing := landings.filter (writes level)

def lastCell? : Option Cell := (writers level landings).getLast?.map (·.cell)

def listRun : List String := ((writers level landings).rtakeWhile isList).flatMap items

def groupRun : List Group := ((writers level landings).rtakeWhile isGroup).map members

-- The last value that some groups give to a key, null if none of them has it.
def lastValue (groups : List Group) (key : String) : Option Scalar :=
  (groups.reverse.findSome? (·.get? key)).join

-- What has landed anywhere in the column since the groups that came last began. Meanwhile the row
-- holds a group, so that it learns keys from groups above it too.
def sinceGrouped : List Landing :=
  (landings.rtakeWhile fun landing => !landing.writes level || landing.isGroup).dropWhile
    fun landing => !landing.writes level

def learnedKeys : List String := (sinceGrouped level landings).flatMap (·.members.keys)

def opensWithList : Bool := landings.head?.any isList

def columnKeys (highest : Nat) : List String :=
  (List.range' 1 highest).flatMap fun level => learnedKeys level landings

variable (landing : Landing)

theorem writers_concat_of_writes (writing : landing.writes level = true) :
    writers level (landings ++ [landing]) = writers level landings ++ [landing] := by
  simp [writers, writing]

theorem writers_concat_of_passes (passing : landing.writes level = false) :
    writers level (landings ++ [landing]) = writers level landings := by
  simp [writers, passing]

theorem lastCell?_concat_of_writes (writing : landing.writes level = true) :
    lastCell? level (landings ++ [landing]) = some landing.cell := by
  simp [lastCell?, writers_concat_of_writes level landings landing writing]

theorem lastCell?_concat_of_passes (passing : landing.writes level = false) :
    lastCell? level (landings ++ [landing]) = lastCell? level landings := by
  rw [lastCell?, writers_concat_of_passes level landings landing passing, lastCell?]

theorem lastCell?_eq_none : lastCell? level landings = none ↔ writers level landings = [] := by
  rw [lastCell?, Option.map_eq_none_iff, List.getLast?_eq_none_iff]

theorem opensWithList_concat (inhabited : landings ≠ []) :
    opensWithList (landings ++ [landing]) = opensWithList landings := by
  cases landings with
  | nil => exact absurd rfl inhabited
  | cons head rest => rfl

theorem rtakeWhile_eq_nil_of_last (writing : List Landing) (pick : Landing → Bool)
    (other : ∀ last, writing.getLast? = some last → pick last = false) : writing.rtakeWhile pick = [] := by
  refine List.rtakeWhile_eq_nil_iff.mpr fun inhabited => ?_
  simp [other _ (List.getLast?_eq_some_getLast inhabited)]

-- A run of lists ends where something else was written last.
theorem listRun_eq_nil (other : ∀ items, lastCell? level landings ≠ some (.list items)) :
    listRun level landings = [] := by
  rw [listRun, rtakeWhile_eq_nil_of_last, List.flatMap_nil]
  intro last found
  cases cell : last.cell with
  | list items => exact absurd (by simp [lastCell?, found, cell]) (other items)
  | scalar value => simp [isList, cell]
  | group members => simp [isList, cell]

theorem sinceGrouped_concat_of_writes (writing : landing.writes level = true) (grouped : landing.isGroup = true) :
    sinceGrouped level (landings ++ [landing]) = sinceGrouped level landings ++ [landing] := by
  rw [sinceGrouped, List.rtakeWhile_concat_pos _ _ _ (by simp [grouped]), List.dropWhile_append, sinceGrouped]
  split
  · rename_i empty
    rw [List.isEmpty_iff.mp empty]
    simp [writing]
  · rfl

theorem sinceGrouped_concat_of_other (writing : landing.writes level = true) (other : landing.isGroup = false) :
    sinceGrouped level (landings ++ [landing]) = [] := by
  rw [sinceGrouped, List.rtakeWhile_concat_neg _ _ _ (by simp [writing, other]), List.dropWhile_nil]

theorem sinceGrouped_concat_of_passes (passing : landing.writes level = false) :
    sinceGrouped level (landings ++ [landing]) =
      if sinceGrouped level landings = [] then [] else sinceGrouped level landings ++ [landing] := by
  rw [sinceGrouped, List.rtakeWhile_concat_pos _ _ _ (by simp [passing]), List.dropWhile_append]
  simp [passing, sinceGrouped]

theorem sinceGrouped_eq_nil :
    sinceGrouped level landings = [] ↔ ∀ members, lastCell? level landings ≠ some (.group members) := by
  induction landings using List.reverseRecOn with
  | nil => simp [sinceGrouped, lastCell?, writers]
  | append_singleton earlier landing ih =>
      cases writing : landing.writes level with
      | true =>
          rw [lastCell?_concat_of_writes level earlier landing writing]
          cases cell : landing.cell with
          | group members =>
              rw [sinceGrouped_concat_of_writes level earlier landing writing (by simp [isGroup, cell])]
              simp
          | scalar value =>
              rw [sinceGrouped_concat_of_other level earlier landing writing (by simp [isGroup, cell])]
              simp
          | list items =>
              rw [sinceGrouped_concat_of_other level earlier landing writing (by simp [isGroup, cell])]
              simp
      | false =>
          rw [lastCell?_concat_of_passes level earlier landing writing,
            sinceGrouped_concat_of_passes level earlier landing writing, ← ih]
          split <;> rename_i empty <;> simp [empty]

@[simp]
theorem lastValue_concat (groups : List Group) (group : Group) (key : String) :
    lastValue (groups ++ [group]) key = ((group.get? key).getD (lastValue groups key)) := by
  cases found : group.get? key <;> simp [lastValue, found]

theorem lastValue_groupRun (key : String) (unknown : key ∉ learnedKeys level landings) :
    lastValue (groupRun level landings) key = none := by
  induction landings using List.reverseRecOn with
  | nil => rfl
  | append_singleton earlier landing ih =>
      cases writing : landing.writes level with
      | true =>
          rw [groupRun, writers_concat_of_writes level earlier landing writing]
          cases grouped : landing.isGroup with
          | true =>
              rw [learnedKeys, sinceGrouped_concat_of_writes level earlier landing writing grouped,
                List.flatMap_append, List.mem_append, not_or, List.flatMap_singleton, NameMap.mem_keys] at unknown
              rw [List.rtakeWhile_concat_pos _ _ _ grouped, List.map_append]
              refine (lastValue_concat _ _ _).trans ?_
              rw [Option.not_isSome_iff_eq_none.mp unknown.2]
              exact ih unknown.1
          | false =>
              rw [List.rtakeWhile_concat_neg _ _ _ (by simp [grouped])]
              rfl
      | false =>
          rw [groupRun, writers_concat_of_passes level earlier landing writing]
          refine ih fun known => unknown ?_
          have since : sinceGrouped level earlier ≠ [] := fun empty => by simp [learnedKeys, empty] at known
          rw [learnedKeys, sinceGrouped_concat_of_passes level earlier landing writing, if_neg since,
            List.flatMap_append]
          exact List.mem_append_left _ known

def gathered : Group := NameMap.tabulate (learnedKeys level landings) (lastValue (groupRun level landings))

theorem gathered_eq_empty (other : ∀ members, lastCell? level landings ≠ some (.group members)) :
    gathered level landings = {} := by
  rw [gathered, learnedKeys, (sinceGrouped_eq_nil level landings).mpr other]
  rfl

def drafted : Option Cell :=
  match lastCell? level landings with
  | none => if opensWithList landings then some (.list []) else none
  | some (.scalar value) => some (.scalar value)
  | some (.list _) => some (.list (listRun level landings))
  | some (.group _) => some (.group (gathered level landings))

-- A row lacks the column as long as nothing has landed there.
def slot : Option (Option Cell) := if landings = [] then none else some (drafted level landings)

theorem slot_of_ne_nil (inhabited : landings ≠ []) : slot level landings = some (drafted level landings) :=
  if_neg inhabited

@[simp]
theorem groupIn_slot : Row.groupIn (slot level landings).join = gathered level landings := by
  cases landings with
  | nil => rfl
  | cons head rest =>
      rw [slot_of_ne_nil level _ (List.cons_ne_nil head rest), Option.join_some, drafted]
      split
      · rename_i last
        rw [gathered_eq_empty level _ (by simp [last])]
        split <;> rfl
      · rename_i last
        rw [gathered_eq_empty level _ (by simp [last])]
        rfl
      · rename_i last
        rw [gathered_eq_empty level _ (by simp [last])]
        rfl
      · rfl

@[simp]
theorem listIn_slot : Row.listIn (slot level landings).join = listRun level landings := by
  cases landings with
  | nil => rfl
  | cons head rest =>
      rw [slot_of_ne_nil level _ (List.cons_ne_nil head rest), Option.join_some, drafted]
      split
      · rename_i last
        rw [listRun_eq_nil level _ (by simp [last])]
        split <;> rfl
      · rename_i last
        rw [listRun_eq_nil level _ (by simp [last])]
        rfl
      · rfl
      · rename_i last
        rw [listRun_eq_nil level _ (by simp [last])]
        rfl

theorem gathered_concat_of_writes (members : Group) (cell : landing.cell = .group members)
    (writing : landing.writes level = true) : gathered level (landings ++ [landing]) =
      (gathered level landings).insertAll members.entries := by
  have grouped : landing.isGroup = true := by simp [isGroup, cell]
  have own : landing.members = members := by simp [Landing.members, cell]
  apply NameMap.eq_of_get?
  intro key
  rw [NameMap.get?_insertEntries, gathered, gathered, NameMap.get?_tabulate, NameMap.get?_tabulate, learnedKeys,
    sinceGrouped_concat_of_writes level landings landing writing grouped, groupRun,
    writers_concat_of_writes level landings landing writing, List.rtakeWhile_concat_pos _ _ _ grouped,
    List.map_append, List.map_singleton, lastValue_concat, List.flatMap_append, List.flatMap_singleton, own]
  cases found : members.get? key with
  | none =>
      have absent : key ∉ members.keys := by simp [NameMap.mem_keys, found]
      simp [learnedKeys, groupRun, absent]
  | some value => simp [members.mem_keys_of_get? key value found]

theorem gathered_concat_of_passes (passing : landing.writes level = false)
    (grouped : sinceGrouped level landings ≠ []) : gathered level (landings ++ [landing]) =
      (gathered level landings).learn landing.members.keys := by
  apply NameMap.eq_of_get?
  intro key
  rw [Group.get?_learn, gathered, gathered, NameMap.get?_tabulate, NameMap.get?_tabulate, groupRun,
    writers_concat_of_passes level landings landing passing, ← groupRun, learnedKeys,
    sinceGrouped_concat_of_passes level landings landing passing, if_neg grouped, List.flatMap_append,
    List.flatMap_singleton, ← learnedKeys]
  by_cases known : key ∈ learnedKeys level landings
  · simp [known]
  · simp [known, lastValue_groupRun level landings key known]

-- What does not write a row changes it in one way only: it may teach a group keys.
theorem drafted_concat_of_passes (inhabited : landings ≠ []) (passing : landing.writes level = false) :
    drafted level (landings ++ [landing]) = match drafted level landings with
      | some (.group held) => some (.group (held.learn landing.members.keys))
      | other => other := by
  have sameList : listRun level (landings ++ [landing]) = listRun level landings := by
    rw [listRun, writers_concat_of_passes level landings landing passing, listRun]
  rw [drafted, drafted, lastCell?_concat_of_passes level landings landing passing,
    opensWithList_concat landings landing inhabited, sameList]
  cases last : lastCell? level landings with
  | none => cases opensWithList landings <;> rfl
  | some cell =>
      cases cell with
      | scalar value => rfl
      | list items => rfl
      | group members =>
          have since : sinceGrouped level landings ≠ [] := fun empty =>
            (sinceGrouped_eq_nil level landings).mp empty members last
          simp only
          rw [gathered_concat_of_passes level landings landing passing since]

-- What writes a row goes on with the run that ends there, or starts a new one.
theorem drafted_concat_of_writes (writing : landing.writes level = true) :
    drafted level (landings ++ [landing]) = match landing.cell with
      | .scalar value => some (.scalar value)
      | .list items => some (.list (listRun level landings ++ items))
      | .group members => some (.group ((gathered level landings).insertAll members.entries)) := by
  rw [drafted, lastCell?_concat_of_writes level landings landing writing]
  cases cell : landing.cell with
  | scalar value => rfl
  | list items =>
      have extended : listRun level (landings ++ [landing]) = listRun level landings ++ items := by
        rw [listRun, writers_concat_of_writes level landings landing writing,
          List.rtakeWhile_concat_pos _ _ _ (by simp [isList, cell]), List.flatMap_append, List.flatMap_singleton]
        simp [listRun, Landing.items, cell]
      exact congrArg (fun items => some (Cell.list items)) extended
  | group members =>
      exact congrArg (fun members => some (Cell.group members))
        (gathered_concat_of_writes level landings landing members cell writing)

end Landing

@[simp]
theorem Group.learn_nil (group : Group) : group.learn [] = group := by
  apply NameMap.eq_of_get?
  intro key
  simp

namespace Row

open Landing

-- The premise stands behind the colon, or the match would take it in.
theorem landed_of_writes (cell : Cell) (landing level : Level) (held : Option (Option Cell)) :
    Landing.writes level.toNat ⟨landing.toNat, cell⟩ = true → landed cell landing level held = match cell with
      | .scalar value => some (.scalar value)
      | .list items => some (.list (listIn held.join ++ items))
      | .group members => some (.group ((groupIn held.join).insertAll members.entries)) := by
  intro writing
  cases cell with
  | scalar value =>
      have reached : landing ≤ level := UInt32.le_iff_toNat_le.mpr (of_decide_eq_true writing)
      exact if_pos reached
  | list items =>
      have reached : landing = level := UInt32.toNat_inj.mp (of_decide_eq_true writing)
      exact if_pos reached
  | group members =>
      have reached : landing ≤ level := UInt32.le_iff_toNat_le.mpr (of_decide_eq_true writing)
      exact if_pos reached

theorem landed_of_passes (cell : Cell) (landing level : Level) (held : Option (Option Cell))
    (passing : Landing.writes level.toNat ⟨landing.toNat, cell⟩ = false) :
    landed cell landing level held = match held with
      | none => if Landing.isList ⟨landing.toNat, cell⟩ then some (.list []) else none
      | some (some (.group earlier)) => some (.group (earlier.learn (Landing.members ⟨landing.toNat, cell⟩).keys))
      | some other => other := by
  cases cell with
  | scalar value =>
      have beyond : ¬ landing ≤ level := fun reached =>
        of_decide_eq_false passing (UInt32.le_iff_toNat_le.mp reached)
      refine (if_neg beyond).trans ?_
      split
      · rfl
      · rename_i earlier
        exact congrArg (fun group => some (Cell.group group)) earlier.learn_nil.symm
      · rfl
  | list items =>
      have elsewhere : landing ≠ level := fun same =>
        of_decide_eq_false passing (UInt32.toNat_inj.mpr same)
      refine (if_neg elsewhere).trans ?_
      split
      · rfl
      · rename_i earlier
        exact congrArg (fun group => some (Cell.group group)) earlier.learn_nil.symm
      · rfl
  | group members =>
      have beyond : ¬ landing ≤ level := fun reached =>
        of_decide_eq_false passing (UInt32.le_iff_toNat_le.mp reached)
      refine (if_neg beyond).trans ?_
      cases held with
      | none => rfl
      | some held =>
          cases held with
          | none => rfl
          | some cell => cases cell <;> rfl

theorem landed_slot (cell : Cell) (landing level : Level) (landings : List Landing) :
    landed cell landing level (slot level.toNat landings) =
      drafted level.toNat (landings ++ [⟨landing.toNat, cell⟩]) := by
  cases writing : Landing.writes level.toNat ⟨landing.toNat, cell⟩ with
  | true =>
      rw [landed_of_writes cell landing level _ writing, listIn_slot, groupIn_slot,
        drafted_concat_of_writes level.toNat landings _ writing]
  | false =>
      rw [landed_of_passes cell landing level _ writing]
      by_cases first : landings = []
      · subst first
        rw [drafted, lastCell?_concat_of_passes level.toNat [] _ writing]
        rfl
      · rw [drafted_concat_of_passes level.toNat landings _ first writing, slot_of_ne_nil level.toNat landings first]
        cases drafted level.toNat landings with
        | none => rfl
        | some cell => cases cell <;> rfl

variable (column : String) (ordinary : column ∉ [levelColumn, featureColumn, featuresColumn])
include ordinary

theorem get?_take (row : Row) (step : Step) : (row.take step).columns.get? column =
    match step.landing? column, step with
    | some _, .placed landing _ cell => some (landed cell landing row.level (row.columns.get? column))
    | _, _ => row.columns.get? column := by
  simp only [List.mem_cons, List.not_mem_nil, or_false, not_or] at ordinary
  cases step with
  | dropped level => rfl
  | placed landing other cell =>
      by_cases same : other = column
      · subst same
        simp [take, place, Step.landing?, ordinary]
      · simp only [take, place, Step.landing?, if_neg same]
        split
        · rfl
        · split
          · split <;> rfl
          · exact (NameMap.get?_insert _ _ _ _).trans (if_neg (Ne.symm same))

theorem get?_foldl_take (row : Row) (blank : row.columns.get? column = none) (steps : List Step) :
    (steps.foldl take row).columns.get? column =
      slot row.level.toNat (steps.filterMap (Step.landing? column)) := by
  induction steps using List.reverseRecOn with
  | nil => exact blank
  | append_singleton earlier step ih =>
      rw [List.foldl_append, List.foldl_cons, List.foldl_nil, get?_take column ordinary, ih, level_foldl_take,
        List.filterMap_append]
      cases step with
      | dropped level => exact congrArg (slot row.level.toNat) (List.append_nil _).symm
      | placed landing other cell =>
          by_cases same : other = column
          · have brought : Step.landing? column (.placed landing other cell) = some ⟨landing.toNat, cell⟩ := if_pos same
            rw [List.filterMap_cons, brought, List.filterMap_nil, slot_of_ne_nil _ _ (List.concat_ne_nil _ _)]
            exact congrArg some (landed_slot cell landing row.level _)
          · have passed : Step.landing? column (.placed landing other cell) = none := if_neg same
            rw [List.filterMap_cons, passed, List.filterMap_nil, List.append_nil]

end Row

end ClassProgression
