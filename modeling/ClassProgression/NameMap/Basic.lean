namespace ClassProgression

namespace NameMap

def lookup (name : String) : List (String × α) → Option α
  | [] => none
  | (other, value) :: rest => if name = other then some value else lookup name rest

-- An existing name keeps its place and takes the new value.
def place (name : String) (value : α) : List (String × α) → List (String × α)
  | [] => [(name, value)]
  | (other, previous) :: rest =>
      if name = other then (name, value) :: rest
      else if name < other then (name, value) :: (other, previous) :: rest
      else (other, previous) :: place name value rest

def Ascending (entries : List (String × α)) : Prop :=
  entries.Pairwise fun left right => left.1 < right.1

instance (entries : List (String × α)) : Decidable (Ascending entries) :=
  inferInstanceAs (Decidable (entries.Pairwise fun left right => left.1 < right.1))

theorem mem_place (name : String) (value : α) (entries : List (String × α)) (entry : String × α)
    (member : entry ∈ place name value entries) : entry = (name, value) ∨ entry ∈ entries := by
  induction entries with
  | nil => simpa [place] using member
  | cons head rest ih => grind [place]

theorem lt_of_not_lt (name other : String) (different : name ≠ other) (notLess : ¬ name < other) :
    other < name :=
  Decidable.byContradiction fun notGreater =>
    different (String.le_antisymm (String.not_lt.mp notGreater) (String.not_lt.mp notLess))

theorem ascending_place (name : String) (value : α) (entries : List (String × α))
    (ascending : Ascending entries) : Ascending (place name value entries) := by
  induction entries with
  | nil => simp [Ascending, place]
  | cons head rest ih =>
      have ⟨first, tail⟩ := List.pairwise_cons.mp ascending
      by_cases same : name = head.1
      · subst same
        simpa [place, Ascending] using ascending
      · by_cases less : name < head.1
        · have placed : place name value (head :: rest) = (name, value) :: head :: rest := by
            simp [place, same, less]
          rw [placed]
          exact .cons (by grind [String.lt_trans]) ascending
        · have placed : place name value (head :: rest) = head :: place name value rest := by
            simp [place, same, less]
          rw [placed]
          exact .cons (fun entry member => (mem_place name value rest entry member).elim
            (fun placedNow => by rw [placedNow]; exact lt_of_not_lt _ _ same less) (first entry)) (ih tail)

end NameMap

structure NameMap (α : Type u) where
  entries : List (String × α)
  ascending : NameMap.Ascending entries

namespace NameMap

instance [DecidableEq α] : DecidableEq (NameMap α) := fun left right =>
  if same : left.entries = right.entries then
    isTrue (by cases left; cases right; cases same; rfl)
  else isFalse fun equal => same (congrArg entries equal)

instance [BEq α] : BEq (NameMap α) := ⟨fun left right => left.entries == right.entries⟩

def empty : NameMap α := ⟨[], List.Pairwise.nil⟩

instance : EmptyCollection (NameMap α) := ⟨empty⟩

instance : Inhabited (NameMap α) := ⟨empty⟩

def isEmpty (m : NameMap α) : Bool := m.entries.isEmpty

def size (m : NameMap α) : Nat := m.entries.length

def get? (m : NameMap α) (name : String) : Option α := lookup name m.entries

def contains (m : NameMap α) (name : String) : Bool := (m.get? name).isSome

def keys (m : NameMap α) : List String := m.entries.map (·.1)

def values (m : NameMap α) : List α := m.entries.map (·.2)

def insert (m : NameMap α) (name : String) (value : α) : NameMap α :=
  ⟨place name value m.entries, ascending_place name value m.entries m.ascending⟩

-- Later entries win.
def insertAll (m : NameMap α) (added : List (String × α)) : NameMap α :=
  added.foldl (fun earlier entry => earlier.insert entry.1 entry.2) m

def ofList (entries : List (String × α)) : NameMap α := empty.insertAll entries

def distinct (names : List String) : List String := (ofList (names.map fun name => (name, ()))).keys

def tabulate (names : List String) (value : String → α) : NameMap α :=
  ofList (names.map fun name => (name, value name))

def map (f : α → β) (m : NameMap α) : NameMap β :=
  ⟨m.entries.map fun entry => (entry.1, f entry.2), by
    refine List.pairwise_map.mpr ?_
    exact m.ascending⟩

-- Adds the second map's entries to the first in ascending order of names. A name that both hold
-- is settled by `combine`, whose first failure ends the whole addition.
def absorb (combine : String → α → α → Except ε α) (m added : NameMap α) : Except ε (NameMap α) :=
  added.entries.foldlM (fun earlier entry =>
    match earlier.get? entry.1 with
    | none => .ok (earlier.insert entry.1 entry.2)
    | some held => (combine entry.1 held entry.2).map (earlier.insert entry.1)) m

end NameMap

end ClassProgression
