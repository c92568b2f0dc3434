import ClassProgression.Fault
import ClassProgression.Notice
import ClassProgression.Table.Alignment

namespace ClassProgression

namespace Row

def combineMembers (column : String) (level : Level) (key : String) :
    Option Scalar → Option Scalar → Except Fault (Option Scalar)
  | held, none => .ok held
  | none, some incoming => .ok (some incoming)
  | some held, some incoming =>
      match held.add? incoming with
      | some sum => .ok (some sum)
      | none =>
          match held, incoming with
          | .integer _, .integer _ =>
              .error (.overflow (column ++ "." ++ key) level held.display incoming.display)
          | _, _ =>
              if held == incoming then .ok (some held)
              else .error (.collision (column ++ "." ++ key) level held.display incoming.display)

def combineCells (level : Level) (column : String) : Option Cell → Option Cell → Except Fault (Option Cell)
  | held, none => .ok held
  | none, some incoming => .ok (some incoming)
  | some (.list held), some (.list incoming) => .ok (some (.list (held ++ incoming)))
  | some (.group held), some (.group incoming) =>
      (held.absorb (combineMembers column level) incoming).map fun members => some (.group members)
  | some held, some incoming =>
      if held == incoming then .ok (some held)
      else .error (.collision column level held.display incoming.display)

def combine (row incoming : Row) : Except Fault Row :=
  (row.columns.absorb (combineCells row.level) incoming.columns).map fun columns =>
    {row with features := row.features ++ incoming.features, columns := columns}

end Row

namespace Table

-- Rows stay in strictly ascending order of levels.
def mergeRow (incoming : Row) : List Row → Except Fault (List Row)
  | [] => .ok [incoming]
  | row :: rest =>
      if incoming.level < row.level then .ok (incoming :: row :: rest)
      else if incoming.level = row.level then (row.combine incoming).map (· :: rest)
      else (mergeRow incoming rest).map (row :: ·)

def mergeRows (incoming : List Row) : Except Fault (List Row) :=
  incoming.foldlM (fun merged row => mergeRow row merged) []

def merge (tables : List Table) : Except Fault Table :=
  (mergeRows (tables.flatMap (·.rows))).map fun rows => ⟨Alignment.align rows⟩

def mergeNotices (tables : List Table) : List Notice :=
  match merge tables with
  | .ok table => [.merged table.rows.length]
  | .error _ => []

end Table

end ClassProgression
