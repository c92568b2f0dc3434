import ClassProgression.Table.Basic

namespace ClassProgression

def Group.learn (group : Group) (names : List String) : Group :=
  (NameMap.tabulate names fun _ => none).insertAll group.entries

namespace Row

def group? (row : Row) (column : String) : Option Group :=
  match row.cell? column with
  | some (.group members) => some members
  | _ => none

end Row

namespace Alignment

def columnNames (rows : List Row) : List String :=
  NameMap.distinct (rows.flatMap fun row => row.columns.keys)

-- The keys of a column's groups, or nothing if no row holds a group there.
def groupKeys? (rows : List Row) (column : String) : Option (List String) :=
  match rows.filterMap fun row => row.group? column with
  | [] => none
  | groups => some (NameMap.distinct (groups.flatMap fun group => group.keys))

def plan (rows : List Row) : List (String × Option (List String)) :=
  (columnNames rows).map fun column => (column, groupKeys? rows column)

-- In a grouped column an empty cell becomes a group; scalars and lists stay.
def alignCell (keys : Option (List String)) (held : Option Cell) : Option Cell :=
  match keys with
  | none => held
  | some names =>
      match held with
      | none => some (.group (Group.learn {} names))
      | some (.group members) => some (.group (members.learn names))
      | some other => some other

def alignRow (planned : List (String × Option (List String))) (row : Row) : Row :=
  {row with columns := NameMap.ofList (planned.map fun entry => (entry.1, alignCell entry.2 (row.cell? entry.1)))}

def align (rows : List Row) : List Row := rows.map (alignRow (plan rows))

end Alignment

end ClassProgression
