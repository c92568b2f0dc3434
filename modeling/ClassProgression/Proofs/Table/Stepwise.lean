import ClassProgression.Proofs.Table.Halves
import ClassProgression.Proofs.Table.Refusal

namespace ClassProgression

-- Outcomes of two runs: both end well and are related, or both end with the same fault.
inductive Alike (related : α → β → Prop) : Except ε α → Except ε β → Prop where
  | ok (left : α) (right : β) (held : related left right) : Alike related (.ok left) (.ok right)
  | fault (fault : ε) : Alike related (.error fault) (.error fault)

namespace Alike

theorem refl (related : α → α → Prop) (same : ∀ value, related value value) (outcome : Except ε α) :
    Alike related outcome outcome := by
  cases outcome with
  | ok value => exact .ok value value (same value)
  | error fault => exact .fault fault

variable {related : α → β → Prop} {first : Except ε α} {second : Except ε β}

theorem map (alike : Alike related first second) (next : γ → δ → Prop) {f : α → γ} {g : β → δ}
    (kept : ∀ left right, related left right → next (f left) (g right)) : Alike next (first.map f) (second.map g) := by
  cases alike with
  | ok left right held => exact .ok _ _ (kept left right held)
  | fault fault => exact .fault fault

theorem bind (alike : Alike related first second) (next : γ → δ → Prop) {f : α → Except ε γ} {g : β → Except ε δ}
    (kept : ∀ left right, related left right → Alike next (f left) (g right)) :
    Alike next (first.bind f) (second.bind g) := by
  cases alike with
  | ok left right held => exact kept left right held
  | fault fault => exact .fault fault

theorem of_ok (left : α) (alike : Alike related (.ok left) second) :
    ∃ right, second = .ok right ∧ related left right := by
  cases alike with
  | ok _ right held => exact ⟨right, rfl, held⟩

theorem of_error (fault : ε) (alike : Alike related (.error fault) second) : second = .error fault := by
  cases alike with
  | fault _ => rfl

end Alike

theorem NameMap.absorb_alike (combine : String → α → α → Except ε α) (m other added : NameMap α)
    (related : String → Option α → Option α → Prop)
    (alike : ∀ name, Alike (related name) (absorbAt combine name (m.get? name) (added.get? name))
      (absorbAt combine name (other.get? name) (added.get? name))) :
    Alike (fun left right : NameMap α => ∀ name, related name (left.get? name) (right.get? name))
      (m.absorb combine added) (other.absorb combine added) := by
  cases first : m.absorb combine added with
  | ok left =>
      have both : ∀ name, ∃ right, absorbAt combine name (other.get? name) (added.get? name) = .ok right ∧
          related name (left.get? name) right := by
        intro name
        have own := alike name
        rw [(absorb_eq_ok combine m added left).mp first name] at own
        exact own.of_ok
      cases second : other.absorb combine added with
      | ok right =>
          refine .ok left right fun name => ?_
          obtain ⟨value, accepted, held⟩ := both name
          rw [(absorb_eq_ok combine other added right).mp second name] at accepted
          rwa [Except.ok.inj accepted]
      | error fault =>
          obtain ⟨name, refused, _⟩ := (absorb_eq_error combine other added fault).mp second
          obtain ⟨value, accepted, _⟩ := both name
          exact nomatch accepted.symm.trans refused
  | error fault =>
      obtain ⟨name, refused, below⟩ := (absorb_eq_error combine m added fault).mp first
      have second : other.absorb combine added = .error fault := by
        refine (absorb_eq_error combine other added fault).mpr ⟨name, ?_, fun less lower => ?_⟩
        · have own := alike name
          rw [refused] at own
          exact own.of_error
        · obtain ⟨result, accepted⟩ := below less lower
          have own := alike less
          rw [accepted] at own
          obtain ⟨right, same, _⟩ := own.of_ok
          exact ⟨right, same⟩
      rw [second]
      exact .fault fault

-- The place of a name in two maps: the same, or in the second one a missing value where the first
-- does not have the name. `known` names may be added that way.
inductive Learned (known : Prop) : Option (Option α) → Option (Option α) → Prop where
  | same (slot : Option (Option α)) : Learned known slot slot
  | added (may : known) : Learned known none (some none)

namespace Learned

variable {known : Prop} {held other : Option (Option α)} (learned : Learned known held other)
include learned

theorem isSome_of_isSome (present : held.isSome) : other.isSome := by
  cases learned with
  | same => exact present
  | added => rfl

theorem known_of_isSome (present : other.isSome) : held.isSome ∨ known := by
  cases learned with
  | same => exact .inl present
  | added may => exact .inr may

theorem join_eq : held.join = other.join := by
  cases learned <;> rfl

theorem absorbAt (combine : String → Option α → Option α → Except ε (Option α)) (name : String)
    (fresh : ∀ incoming, combine name none incoming = .ok incoming) (incoming : Option (Option α)) :
    Alike (Learned known) (NameMap.absorbAt combine name held incoming)
      (NameMap.absorbAt combine name other incoming) := by
  cases learned with
  | same slot => exact .refl _ .same _
  | added may =>
      cases incoming with
      | none => exact .ok _ _ (.added may)
      | some value =>
          have taken : NameMap.absorbAt combine name (some none) (some value) = .ok (some value) := by
            rw [NameMap.absorbAt, fresh value]
            rfl
          rw [taken]
          exact .ok _ _ (.same (some value))

end Learned

-- A group and the same group after an alignment among the known rows.
def Group.Learned (names : List String) (members more : Group) : Prop :=
  ∀ key, ClassProgression.Learned (key ∈ names) (members.get? key) (more.get? key)

theorem Group.Learned.absorb (column : String) (level : Level) (names : List String) (members more incoming : Group)
    (learned : Learned names members more) : Alike (Learned names)
      (members.absorb (Row.combineMembers column level) incoming)
      (more.absorb (Row.combineMembers column level) incoming) := by
  refine NameMap.absorb_alike _ _ _ _ (fun key => ClassProgression.Learned (key ∈ names)) fun key => ?_
  refine (learned key).absorbAt _ key (fun value => ?_) _
  cases value <;> rfl

theorem Group.Learned.tabulate (names : List String) (members : Group) (covered : ∀ key ∈ members.keys, key ∈ names) :
    Learned names members (NameMap.tabulate names fun key => (members.get? key).join) := by
  intro key
  rw [NameMap.get?_tabulate]
  cases found : members.get? key with
  | none =>
      split
      · rename_i present
        exact .added present
      · exact .same none
  | some value =>
      rw [if_pos (covered key (members.mem_keys_of_get? key value found))]
      exact .same (some value)

theorem Group.empty_absorb (column : String) (level : Level) (incoming : Group) :
    NameMap.absorb (Row.combineMembers column level) {} incoming = .ok incoming := by
  refine (NameMap.absorb_eq_ok _ _ _ _).mpr fun key => ?_
  rw [show NameMap.get? ({} : Group) key = none from rfl]
  cases incoming.get? key <;> rfl

-- A column of a row, and of the same row after an alignment among the known rows.
inductive Backfilled (known : List Row) (column : String) : Option (Option Cell) → Option (Option Cell) → Prop where
  | same (slot : Option (Option Cell)) : Backfilled known column slot slot
  | null (listed : column ∈ Alignment.columnNames known) : Backfilled known column none (some none)
  | nulls (slot : Option (Option Cell)) (more : Group) (empty : slot.join = none)
      (grouped : Alignment.Grouped known column) (learned : Group.Learned (Alignment.keysOf known column) {} more) :
      Backfilled known column slot (some (some (.group more)))
  | group (members more : Group) (grouped : Alignment.Grouped known column)
      (learned : Group.Learned (Alignment.keysOf known column) members more) :
      Backfilled known column (some (some (.group members))) (some (some (.group more)))

-- A row, and the same row after an alignment among the known rows.
structure Padded (known : List Row) (row other : Row) : Prop where
  level : other.level = row.level
  features : other.features = row.features
  columns : ∀ column, Backfilled known column (row.columns.get? column) (other.columns.get? column)

-- The cells of a row go into the known columns of groups only as groups.
def Fits (known : List Row) (incoming : Row) : Prop :=
  ∀ column, Alignment.Grouped known column → ∀ cell, incoming.cell? column = some cell → cell.kind = .group

theorem Cell.eq_group_of_kind (cell : Cell) (grouped : cell.kind = .group) : ∃ members, cell = .group members := by
  cases cell with
  | group members => exact ⟨members, rfl⟩
  | scalar value => cases grouped
  | list items => cases grouped

namespace Backfilled

variable (known : List Row) (column : String)

theorem absorbAt (level : Level) (held other incoming : Option (Option Cell))
    (fits : Alignment.Grouped known column → ∀ cell, incoming.join = some cell → cell.kind = .group)
    (backfilled : Backfilled known column held other) : Alike (Backfilled known column)
      (NameMap.absorbAt (Row.combineCells level) column held incoming)
      (NameMap.absorbAt (Row.combineCells level) column other incoming) := by
  cases incoming with
  | none => simpa using .ok _ _ backfilled
  | some value =>
      cases backfilled with
      | same slot => exact .refl _ .same _
      | null listed =>
          have taken : NameMap.absorbAt (Row.combineCells level) column (some none) (some value) = .ok (some value) := by
            cases value <;> rfl
          rw [taken]
          exact .ok _ _ (.same (some value))
      | nulls slot more empty grouped learned =>
          have taken : NameMap.absorbAt (Row.combineCells level) column held (some value) = .ok (some value) := by
            rcases held with _ | _ | cell
            · rfl
            · cases value <;> rfl
            · cases empty
          rw [taken]
          cases value with
          | none => exact .ok _ _ (.nulls (some none) more rfl grouped learned)
          | some cell =>
              obtain ⟨incoming, rfl⟩ := cell.eq_group_of_kind (fits grouped cell rfl)
              have absorbed := learned.absorb column level _ _ _ incoming
              rw [Group.empty_absorb] at absorbed
              obtain ⟨joined, same, still⟩ := absorbed.of_ok
              rw [NameMap.absorbAt, Row.combineCells, same]
              exact .ok _ _ (.group incoming joined grouped still)
      | group members more grouped learned =>
          cases value with
          | none => exact .ok _ _ (.group members more grouped learned)
          | some cell =>
              obtain ⟨incoming, rfl⟩ := cell.eq_group_of_kind (fits grouped cell rfl)
              have joined := (learned.absorb column level _ _ _ incoming).map
                (fun left right => Backfilled known column (some left) (some right))
                fun left right held => .group left right grouped held
              exact joined.map _ fun _ _ held => held

theorem alignCell (row : Row) (member : row ∈ known) (listed : column ∈ Alignment.columnNames known) :
    Backfilled known column (row.columns.get? column)
      (some (Alignment.alignCell (Alignment.groupKeys? known column) (row.cell? column))) := by
  have present : ∀ held, row.cell? column = some held → row.columns.get? column = some (some held) := fun held =>
    Option.join_eq_some_iff.mp
  by_cases grouped : Alignment.Grouped known column
  · cases held : row.cell? column with
    | none =>
        rw [Alignment.alignCell_null known column grouped]
        exact .nulls _ _ held grouped (.tabulate _ {} fun key known => nomatch known)
    | some cell =>
        rw [present cell held]
        cases cell with
        | scalar value => simpa using .same _
        | list items => simpa using .same _
        | group members =>
            rw [Alignment.alignCell_group known column row member members held]
            refine .group members _ grouped (.tabulate _ members fun key own => ?_)
            exact (Alignment.mem_keysOf known column key).mpr
              ⟨row, member, members, (row.group?_eq_some column members).mpr held, own⟩
  · rw [Alignment.alignCell_ungrouped known column _ grouped, Row.cell?]
    cases row.columns.get? column with
    | none => exact .null listed
    | some held => exact .same (some held)

variable {known column} {slot other : Option (Option Cell)} (backfilled : Backfilled known column slot other)
include backfilled

theorem isSome_of_isSome (held : slot.isSome) : other.isSome := by
  cases backfilled with
  | same => exact held
  | null listed => cases held
  | nulls => rfl
  | group => rfl

theorem listed_of_isSome (held : other.isSome) : slot.isSome ∨ column ∈ Alignment.columnNames known := by
  have listed (grouped : Alignment.Grouped known column) : column ∈ Alignment.columnNames known :=
    Classical.byContradiction fun unlisted => Alignment.not_grouped_of_not_mem known column unlisted grouped
  cases backfilled with
  | same => exact .inl held
  | null listed => exact .inr listed
  | nulls _ more empty grouped => exact .inr (listed grouped)
  | group => exact .inl rfl

theorem group_of_group (members : Group) (held : slot.join = some (.group members)) :
    ∃ more, other.join = some (.group more) ∧ ∀ key ∈ members.keys, key ∈ more.keys := by
  cases backfilled with
  | same => exact ⟨members, held, fun _ own => own⟩
  | null => cases held
  | nulls _ more empty =>
      rw [empty] at held
      cases held
  | group earlier more grouped learned =>
      cases held
      refine ⟨more, rfl, fun key own => ?_⟩
      rw [NameMap.mem_keys] at own ⊢
      exact (learned key).isSome_of_isSome own

theorem known_of_group (more : Group) (held : other.join = some (.group more)) :
    (Alignment.Grouped known column ∨ ∃ members, slot.join = some (.group members)) ∧
    ∀ key ∈ more.keys, key ∈ Alignment.keysOf known column ∨
      ∃ members, slot.join = some (.group members) ∧ key ∈ members.keys := by
  cases backfilled with
  | same => exact ⟨.inr ⟨more, held⟩, fun key own => .inr ⟨more, held, own⟩⟩
  | null => cases held
  | nulls _ others empty grouped learned =>
      cases held
      refine ⟨.inl grouped, fun key own => .inl ?_⟩
      exact ((learned key).known_of_isSome ((more.mem_keys key).mp own)).resolve_left Bool.false_ne_true
  | group members others grouped learned =>
      cases held
      refine ⟨.inl grouped, fun key own => ?_⟩
      rcases (learned key).known_of_isSome ((more.mem_keys key).mp own) with earlier | known
      · exact .inr ⟨members, rfl, (members.mem_keys key).mpr earlier⟩
      · exact .inl known

end Backfilled

namespace Padded

theorem refl (known : List Row) (row : Row) : Padded known row row :=
  ⟨rfl, rfl, fun _ => .same _⟩

theorem alignRow (known : List Row) (row : Row) (member : row ∈ known) :
    Padded known row (Alignment.alignRow (Alignment.plan known) row) := by
  refine ⟨rfl, rfl, fun column => ?_⟩
  rw [Alignment.get?_alignRow]
  split
  · rename_i listed
    exact .alignCell known column row member listed
  · rename_i unlisted
    rw [Alignment.get?_of_unlisted known column row member unlisted]
    exact .same none

theorem combine (known : List Row) (row other incoming : Row) (padded : Padded known row other)
    (fits : Fits known incoming) : Alike (Padded known) (row.combine incoming) (other.combine incoming) := by
  have absorbed := NameMap.absorb_alike (Row.combineCells row.level) row.columns other.columns incoming.columns
    (fun column => Backfilled known column)
    fun column => (padded.columns column).absorbAt known column row.level _ _ _ (fits column)
  unfold Row.combine
  rw [padded.level]
  refine absorbed.map _ fun left right held => ⟨rfl, ?_, held⟩
  simp only [padded.features]

end Padded

theorem Table.Merged.group_of_grouped (given rows : List Row) (valid : Merged given rows) (column : String) (row : Row)
    (member : row ∈ rows) (members : Group) (held : row.group? column = some members) :
    ∃ other ∈ given, ∃ group, other.group? column = some group := by
  have pooled := (valid.gathers row member).cells column
  rw [(row.group?_eq_some column members).mp held] at pooled
  obtain ⟨inhabited, same⟩ := pooled.kind_eq _ _
  obtain ⟨cell, listed⟩ := List.exists_mem_of_ne_nil _ inhabited
  obtain ⟨group, rfl⟩ := cell.eq_group_of_kind (same cell listed)
  obtain ⟨other, here, own⟩ := List.mem_filterMap.mp listed
  exact ⟨other, (List.mem_filter.mp here).1, group, (other.group?_eq_some column group).mpr own⟩

theorem Alignment.keysOf_ascending (rows : List Row) (column : String) : (keysOf rows column).Pairwise (· < ·) := by
  unfold keysOf groupKeys?
  split
  · exact .nil
  · exact NameMap.distinct_ascending _

-- What the known rows make an alignment add, other rows make it add too.
structure Within (known rows : List Row) : Prop where
  columns : ∀ column ∈ Alignment.columnNames known, column ∈ Alignment.columnNames rows
  groups : ∀ column, Alignment.Grouped known column → Alignment.Grouped rows column
  keys : ∀ column, ∀ key ∈ Alignment.keysOf known column, key ∈ Alignment.keysOf rows column

theorem exists_of_forall₂ (related : α → β → Prop) (left : List α) (right : List β)
    (both : List.Forall₂ related left right) (first : α) (member : first ∈ left) :
    ∃ second ∈ right, related first second := by
  induction both with
  | nil => cases member
  | cons held tail ih =>
      rcases List.mem_cons.mp member with rfl | later
      · exact ⟨_, List.mem_cons_self, held⟩
      · obtain ⟨second, inRest, related⟩ := ih later
        exact ⟨second, List.mem_cons_of_mem _ inRest, related⟩

namespace Within

variable (known rows others : List Row) (within : Within known rows)
  (padded : List.Forall₂ (Padded known) rows others) (column : String)
include within padded

theorem mem_columnNames : column ∈ Alignment.columnNames rows ↔ column ∈ Alignment.columnNames others := by
  constructor
  · intro listed
    obtain ⟨row, member, held⟩ := (Alignment.mem_columnNames rows column).mp listed
    obtain ⟨other, inOthers, pair⟩ := exists_of_forall₂ _ rows others padded row member
    refine (Alignment.mem_columnNames others column).mpr ⟨other, inOthers, ?_⟩
    rw [NameMap.mem_keys] at held ⊢
    exact (pair.columns column).isSome_of_isSome held
  · intro listed
    obtain ⟨other, member, held⟩ := (Alignment.mem_columnNames others column).mp listed
    obtain ⟨row, inRows, pair⟩ := exists_of_forall₂ _ others rows padded.flip other member
    rcases (pair.columns column).listed_of_isSome ((other.columns.mem_keys column).mp held) with own | known
    · exact (Alignment.mem_columnNames rows column).mpr ⟨row, inRows, (row.columns.mem_keys column).mpr own⟩
    · exact within.columns column known

theorem grouped : Alignment.Grouped rows column ↔ Alignment.Grouped others column := by
  constructor
  · rintro ⟨row, member, members, held⟩
    obtain ⟨other, inOthers, pair⟩ := exists_of_forall₂ _ rows others padded row member
    obtain ⟨more, same, _⟩ := (pair.columns column).group_of_group members ((row.group?_eq_some column members).mp held)
    exact ⟨other, inOthers, more, (other.group?_eq_some column more).mpr same⟩
  · rintro ⟨other, member, more, held⟩
    obtain ⟨row, inRows, pair⟩ := exists_of_forall₂ _ others rows padded.flip other member
    obtain ⟨known | ⟨members, own⟩, _⟩ :=
      (pair.columns column).known_of_group more ((other.group?_eq_some column more).mp held)
    · exact within.groups column known
    · exact ⟨row, inRows, members, (row.group?_eq_some column members).mpr own⟩

theorem mem_keysOf (key : String) : key ∈ Alignment.keysOf rows column ↔ key ∈ Alignment.keysOf others column := by
  constructor
  · intro listed
    obtain ⟨row, member, members, held, own⟩ := (Alignment.mem_keysOf rows column key).mp listed
    obtain ⟨other, inOthers, pair⟩ := exists_of_forall₂ _ rows others padded row member
    obtain ⟨more, same, kept⟩ := (pair.columns column).group_of_group members
      ((row.group?_eq_some column members).mp held)
    exact (Alignment.mem_keysOf others column key).mpr
      ⟨other, inOthers, more, (other.group?_eq_some column more).mpr same, kept key own⟩
  · intro listed
    obtain ⟨other, member, more, held, own⟩ := (Alignment.mem_keysOf others column key).mp listed
    obtain ⟨row, inRows, pair⟩ := exists_of_forall₂ _ others rows padded.flip other member
    rcases ((pair.columns column).known_of_group more ((other.group?_eq_some column more).mp held)).2 key own
      with known | ⟨members, same, earlier⟩
    · exact within.keys column key known
    · exact (Alignment.mem_keysOf rows column key).mpr
        ⟨row, inRows, members, (row.group?_eq_some column members).mpr same, earlier⟩

theorem groupKeys?_eq : Alignment.groupKeys? rows column = Alignment.groupKeys? others column := by
  have same := within.grouped known rows others padded column
  by_cases grouped : Alignment.Grouped rows column
  · rw [Alignment.groupKeys?_of_grouped rows column grouped,
      Alignment.groupKeys?_of_grouped others column (same.mp grouped)]
    exact congrArg some ((Alignment.keysOf_ascending rows column).eq_of_mem_iff
      (Alignment.keysOf_ascending others column) (within.mem_keysOf known rows others padded column))
  · rw [Alignment.groupKeys?_of_ungrouped rows column grouped,
      Alignment.groupKeys?_of_ungrouped others column fun other => grouped (same.mpr other)]

-- The last alignment fills in what one of two cells lacks.
theorem alignCell_eq (row other : Row) (inRows : row ∈ rows) (inOthers : other ∈ others) (pair : Padded known row other) :
    Alignment.alignCell (Alignment.groupKeys? rows column) (row.cell? column) =
      Alignment.alignCell (Alignment.groupKeys? others column) (other.cell? column) := by
  have keys := within.groupKeys?_eq known rows others padded column
  have names : Alignment.keysOf rows column = Alignment.keysOf others column := congrArg (·.getD []) keys
  have backfilled := pair.columns column
  generalize held : row.columns.get? column = slot at backfilled
  generalize otherHeld : other.columns.get? column = otherSlot at backfilled
  have own : row.cell? column = slot.join := congrArg Option.join held
  have otherOwn : other.cell? column = otherSlot.join := congrArg Option.join otherHeld
  cases backfilled with
  | same => rw [own, otherOwn, keys]
  | null => rw [own, otherOwn, keys]; rfl
  | nulls _ more empty grouped learned =>
      rw [own, empty, Alignment.alignCell_null rows column (within.groups column grouped), otherOwn, Option.join_some,
        Alignment.alignCell_group others column other inOthers more otherOwn, names]
      refine congrArg (fun members => some (Cell.group (NameMap.tabulate _ members))) (funext fun key => ?_)
      exact (learned key).join_eq
  | group members more grouped learned =>
      rw [own, Option.join_some, Alignment.alignCell_group rows column row inRows members own, otherOwn,
        Option.join_some, Alignment.alignCell_group others column other inOthers more otherOwn, names]
      refine congrArg (fun members => some (Cell.group (NameMap.tabulate _ members))) (funext fun key => ?_)
      exact (learned key).join_eq

omit column in
theorem alignRow_eq (row other : Row) (inRows : row ∈ rows) (inOthers : other ∈ others) (pair : Padded known row other) :
    Alignment.alignRow (Alignment.plan rows) row = Alignment.alignRow (Alignment.plan others) other := by
  have columns : (Alignment.alignRow (Alignment.plan rows) row).columns =
      (Alignment.alignRow (Alignment.plan others) other).columns := by
    refine NameMap.eq_of_get? _ _ fun column => ?_
    rw [Alignment.get?_alignRow, Alignment.get?_alignRow,
      within.alignCell_eq known rows others padded column row other inRows inOthers pair]
    exact if_congr (within.mem_columnNames known rows others padded column) rfl rfl
  exact Row.mk.injEq .. |>.mpr ⟨pair.level.symm, pair.features.symm, columns⟩

omit column in
theorem align_eq : Alignment.align rows = Alignment.align others := by
  obtain ⟨length, pairs⟩ := List.forall₂_iff_zip.mp padded
  refine List.forall₂_eq_eq_eq ▸ List.forall₂_map_left_iff.mpr (List.forall₂_map_right_iff.mpr ?_)
  refine List.forall₂_iff_zip.mpr ⟨length, fun {row other} paired => ?_⟩
  have ⟨inRows, inOthers⟩ := List.of_mem_zip paired
  exact within.alignRow_eq known rows others padded row other inRows inOthers (pairs paired)

end Within

namespace Table

variable (known : List Row)

def mergeOnto (merged further : List Row) : Except Fault (List Row) :=
  further.foldlM (fun earlier row => mergeRow row earlier) merged

theorem mergeRows_append (first second : List Row) : mergeRows (first ++ second) =
    (mergeRows first).bind fun merged => mergeOnto merged second := by
  unfold mergeRows
  rw [List.foldlM_append]
  rfl

theorem mergeRow_alike (incoming : Row) (fits : Fits known incoming) (rows others : List Row)
    (padded : List.Forall₂ (Padded known) rows others) :
    Alike (List.Forall₂ (Padded known)) (mergeRow incoming rows) (mergeRow incoming others) := by
  induction padded with
  | nil => exact .ok _ _ (.cons (.refl known incoming) .nil)
  | @cons row other rest more first tail ih =>
      unfold mergeRow
      rw [first.level]
      split
      · exact .ok _ _ (.cons (.refl known incoming) (.cons first tail))
      · split
        · exact (first.combine known row other incoming fits).map _ fun _ _ held => .cons held tail
        · exact ih.map _ fun _ _ held => .cons first held

theorem mergeOnto_alike (further : List Row) (fits : ∀ incoming ∈ further, Fits known incoming)
    (rows others : List Row) (padded : List.Forall₂ (Padded known) rows others) :
    Alike (List.Forall₂ (Padded known)) (mergeOnto rows further) (mergeOnto others further) := by
  induction further generalizing rows others with
  | nil => exact .ok _ _ padded
  | cons incoming rest ih =>
      have step := mergeRow_alike known incoming (fits incoming List.mem_cons_self) rows others padded
      unfold mergeOnto
      rw [List.foldlM_cons, List.foldlM_cons]
      exact step.bind _ (ih fun other later => fits other (List.mem_cons_of_mem incoming later))

-- The rows merged first have all that an alignment among them would add, and still have it in the end.
theorem Merged.within (first second merged rows : List Row) (start : Merged first merged)
    (whole : Merged (first ++ second) rows) : Within merged rows := by
  refine ⟨fun column listed => ?_, fun column grouped => ?_, fun column key listed => ?_⟩
  · obtain ⟨other, member, held⟩ :=
      (start.mem_columns first merged column).mp ((Alignment.mem_columnNames merged column).mp listed)
    exact (Alignment.mem_columnNames rows column).mpr
      ((whole.mem_columns _ rows column).mpr ⟨other, List.mem_append_left second member, held⟩)
  · obtain ⟨row, member, members, held⟩ := grouped
    obtain ⟨other, given, group, own⟩ := start.group_of_grouped first merged column row member members held
    obtain ⟨joined, inRows, here, gathers⟩ :=
      whole.row_of_mem _ rows other (List.mem_append_left second given)
    obtain ⟨more, same⟩ := gathers.group?_of_mem _ joined column other here group own
    exact ⟨joined, inRows, more, same⟩
  · obtain ⟨other, member, held⟩ := (start.mem_keysOf first merged column key).mp listed
    exact (whole.mem_keysOf _ rows column key).mpr ⟨other, List.mem_append_left second member, held⟩

theorem merge_eq_ok (tables : List Table) (table : Table) (merged : merge tables = .ok table) :
    ∃ rows, mergeRows (tables.flatMap (·.rows)) = .ok rows ∧ table = ⟨Alignment.align rows⟩ := by
  unfold merge at merged
  cases accepted : mergeRows (tables.flatMap (·.rows)) with
  | error fault => rw [accepted] at merged; cases merged
  | ok rows => rw [accepted] at merged; exact ⟨rows, rfl, (Except.ok.inj merged).symm⟩

theorem mergeRows_align (given merged further : List Row) (valid : Merged given merged) :
    mergeRows (Alignment.align merged ++ further) = mergeOnto (Alignment.align merged) further := by
  have ascending : (Alignment.align merged).Pairwise fun lower higher => lower.level < higher.level :=
    List.pairwise_map.mpr valid.ascending
  rw [mergeRows_append, mergeRows_ascending _ ascending]
  rfl

end Table

def Unmixed (rows : List Row) (column : String) : Prop :=
  (∀ row ∈ rows, ∀ cell, row.cell? column = some cell → cell.kind = .group) ∨
  ∀ row ∈ rows, ∀ cell, row.cell? column = some cell → cell.kind ≠ .group

theorem Unmixed.fits (first second known : List Row) (start : Table.Merged first known)
    (unmixed : ∀ column, Unmixed (first ++ second) column) : ∀ incoming ∈ second, Fits known incoming := by
  rintro incoming later column ⟨row, member, members, held⟩ cell own
  obtain ⟨other, given, group, grouped⟩ := start.group_of_grouped first known column row member members held
  rcases unmixed column with groups | others
  · exact groups incoming (List.mem_append_right first later) cell own
  · exact absurd rfl (others other (List.mem_append_left second given) _ ((other.group?_eq_some column group).mp grouped))

theorem merge_stepwise (first second : List Table)
    (unmixed : ∀ column, Unmixed ((first ++ second).flatMap (·.rows)) column) :
    (∀ fault, Table.merge first = .error fault → Table.merge (first ++ second) = .error fault) ∧
    ∀ table, Table.merge first = .ok table → Table.merge ([table] ++ second) = Table.merge (first ++ second) := by
  have given : (first ++ second).flatMap (·.rows) = first.flatMap (·.rows) ++ second.flatMap (·.rows) :=
    List.flatMap_append
  rw [given] at unmixed
  refine ⟨fun fault failed => ?_, fun table merged => ?_⟩
  · rw [Table.merge_eq_error] at failed ⊢
    rw [given, Table.mergeRows_append, failed]
    rfl
  · obtain ⟨known, accepted, rfl⟩ := Table.merge_eq_ok first table merged
    have start := Table.mergeRows_valid _ known accepted
    have plain : Table.mergeRows ((first ++ second).flatMap (·.rows)) =
        Table.mergeOnto known (second.flatMap (·.rows)) := by
      rw [given, Table.mergeRows_append, accepted]
      rfl
    have stepped : Table.mergeRows (([Table.mk (Alignment.align known)] ++ second).flatMap (·.rows)) =
        Table.mergeOnto (Alignment.align known) (second.flatMap (·.rows)) :=
      Table.mergeRows_align _ known _ start
    have alike := Table.mergeOnto_alike known (second.flatMap (·.rows))
      (Unmixed.fits _ _ known start unmixed) known (Alignment.align known)
      (List.forall₂_map_right_iff.mpr (List.forall₂_same.mpr (Padded.alignRow known)))
    rw [← plain, ← stepped] at alike
    unfold Table.merge
    generalize outcome : Table.mergeRows ((first ++ second).flatMap (·.rows)) = direct at alike ⊢
    generalize Table.mergeRows (([Table.mk (Alignment.align known)] ++ second).flatMap (·.rows)) = indirect at alike ⊢
    cases alike with
    | fault fault => rfl
    | ok rows others held =>
        rw [given] at outcome
        have within := start.within _ _ known rows (Table.mergeRows_valid _ rows outcome)
        exact congrArg (fun rows => Except.ok (Table.mk rows)) (within.align_eq known rows others held).symm

-- The first class alone has no group at level two, so the merged table has one of nulls there. With a
-- second die the later class does not matter any more.
theorem slots_then_more_slots :
    let slots (key : String) (count : Int64) : Option Cell :=
      some (.group (NameMap.ofList [(key, some (.integer count))]))
    let die (text : String) : Option Cell := some (.scalar (.text text))
    let first : List Table := [⟨[⟨1, [], NameMap.ofList [("Slots", slots "1st" 2)]⟩,
      ⟨2, [], NameMap.ofList [("Die", die "d8")]⟩]⟩]
    let other : List Table := [⟨[⟨2, [], NameMap.ofList [("Die", die "d10")]⟩]⟩]
    let second : List Table := [⟨[⟨2, [], NameMap.ofList [("Slots", slots "2nd" 1)]⟩]⟩]
    (∃ table, Table.merge first = .ok table ∧ (∀ row ∈ table.rows, (row.group? "Slots").isSome) ∧
      Table.merge ([table] ++ second) = Table.merge (first ++ second)) ∧
    Table.merge (first ++ other) = .error (.collision "Die" 2 "d8" "d10") ∧
    Table.merge (first ++ other ++ second) = .error (.collision "Die" 2 "d8" "d10") := by
  intro slots die first other second
  have all : ∀ row ∈ (first ++ other ++ second).flatMap (·.rows), ∀ entry ∈ row.columns.entries,
      entry.2.all fun cell => cell.kind = .group ↔ entry.1 = "Slots" := by decide +kernel
  have unmixed : ∀ column, Unmixed ((first ++ other ++ second).flatMap (·.rows)) column := by
    intro column
    have kinds : ∀ row ∈ (first ++ other ++ second).flatMap (·.rows), ∀ cell, row.cell? column = some cell →
        (cell.kind = .group ↔ column = "Slots") := by
      intro row member cell held
      have entry := NameMap.mem_of_lookup column _ _ (Option.join_eq_some_iff.mp held)
      simpa using all row member _ entry
    by_cases named : column = "Slots"
    · exact .inl fun row member cell held => (kinds row member cell held).mpr named
    · exact .inr fun row member cell held grouped => named ((kinds row member cell held).mp grouped)
  have fewer : ∀ column, Unmixed ((first ++ second).flatMap (·.rows)) column := by
    intro column
    have within : ∀ row ∈ (first ++ second).flatMap (·.rows), row ∈ (first ++ other ++ second).flatMap (·.rows) := by
      intro row member
      rw [List.flatMap_append, List.mem_append] at member
      rw [List.flatMap_append, List.flatMap_append, List.mem_append, List.mem_append]
      exact member.imp_left .inl
    exact (unmixed column).imp (fun groups row member => groups row (within row member))
      fun others row member => others row (within row member)
  have failed : Table.merge (first ++ other) = .error (.collision "Die" 2 "d8" "d10") := by decide +kernel
  refine ⟨?_, failed, (merge_stepwise (first ++ other) second unmixed).1 _ failed⟩
  obtain ⟨table, merged⟩ : ∃ table, Table.merge first = .ok table := ⟨_, rfl⟩
  have grouped : (Table.merge first).toOption.any fun table =>
      table.rows.all fun row => (row.group? "Slots").isSome := by decide +kernel
  rw [merged, Except.toOption, Option.any_some, List.all_eq_true] at grouped
  exact ⟨table, merged, grouped, (merge_stepwise first second fewer).2 table merged⟩

end ClassProgression
