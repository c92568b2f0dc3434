import ClassProgression.Proofs.Table.Finished

namespace ClassProgression.Table

def MetBefore (names : List String) (earlier later : String) : Prop := names.idxOf earlier < names.idxOf later

theorem MetBefore.append (names more : List String) (earlier later : String) (met : MetBefore names earlier later)
    (known : later ∈ names) : MetBefore (names ++ more) earlier later := by
  have inNames : earlier ∈ names := List.idxOf_lt_length_iff.mp (Nat.lt_trans met (List.idxOf_lt_length_iff.mpr known))
  unfold MetBefore at met ⊢
  rwa [List.idxOf_append_of_mem inNames, List.idxOf_append_of_mem known]

theorem metBefore_new (names : List String) (known new : String) (inNames : known ∈ names) (fresh : new ∉ names) :
    MetBefore (names ++ [new]) known new := by
  unfold MetBefore
  rw [List.idxOf_append_of_mem inNames, List.idxOf_append_of_notMem fresh]
  exact Nat.lt_add_right _ (List.idxOf_lt_length_iff.mpr inNames)

theorem nodup_of_metBefore (names listed : List String) (inOrder : listed.Pairwise (MetBefore names)) :
    listed.Nodup := by
  refine inOrder.imp fun {earlier later} met same => ?_
  rw [same] at met
  exact Nat.lt_irrefl _ met

def levelsOf (mentions : List (String × Level)) (name : String) : List Level :=
  (mentions.filter fun mention => mention.1 = name).map (·.2)

theorem levelsOf_concat (mentions : List (String × Level)) (name other : String) (level : Level) :
    levelsOf (mentions ++ [(name, level)]) other = levelsOf mentions other ++ if other = name then [level] else [] := by
  rw [levelsOf, List.filter_append, List.map_append, List.filter_singleton]
  by_cases same : other = name
  · simp [same, levelsOf]
  · simp [same, Ne.symm same, levelsOf]

theorem levelsOf_eq_nil (mentions : List (String × Level)) (name : String) (unread : name ∉ mentions.map (·.1)) :
    levelsOf mentions name = [] := by
  rw [levelsOf, List.map_eq_nil_iff, List.filter_eq_nil_iff]
  intro mention member same
  exact unread (List.mem_map.mpr ⟨mention, member, by simpa using same⟩)

-- What is on record once these mentions have been read.
structure Recorded (mentions : List (String × Level)) (gained : List (String × List Level)) : Prop where
  named : ∀ name, name ∈ gained.map (·.1) ↔ name ∈ mentions.map (·.1)
  inOrder : (gained.map (·.1)).Pairwise (MetBefore (mentions.map (·.1)))
  levels : ∀ entry ∈ gained, entry.2 = levelsOf mentions entry.1
  total : (gained.map (·.2.length)).sum = mentions.length

theorem record_cases (name : String) (level : Level) (gained : List (String × List Level)) :
    (name ∉ gained.map (·.1) ∧ record name level gained = gained ++ [(name, [level])]) ∨
    ∃ before levels after, gained = before ++ (name, levels) :: after ∧
      record name level gained = before ++ (name, levels ++ [level]) :: after := by
  induction gained with
  | nil => exact .inl ⟨List.not_mem_nil, rfl⟩
  | cons head rest ih =>
      obtain ⟨other, levels⟩ := head
      unfold record
      by_cases same : other = name
      · rw [if_pos same]
        exact .inr ⟨[], levels, rest, by rw [same]; rfl, by rw [same]; rfl⟩
      · rw [if_neg same]
        rcases ih with ⟨absent, placed⟩ | ⟨before, held, after, rfl, placed⟩
        · exact .inl ⟨by simpa [Ne.symm same] using absent, by rw [placed]; rfl⟩
        · exact .inr ⟨(other, levels) :: before, held, after, rfl, by rw [placed]; rfl⟩

namespace Recorded

variable (mentions : List (String × Level)) (gained : List (String × List Level)) (recorded : Recorded mentions gained)
include recorded

theorem new (name : String) (level : Level) (absent : name ∉ gained.map (·.1)) :
    Recorded (mentions ++ [(name, level)]) (gained ++ [(name, [level])]) := by
  have unread : name ∉ mentions.map (·.1) := fun read => absent ((recorded.named name).mpr read)
  refine ⟨fun other => ?_, ?_, ?_, ?_⟩
  · simp [recorded.named other]
  · rw [List.map_append, List.map_append, List.pairwise_append]
    refine ⟨recorded.inOrder.imp_of_mem fun _ inLater met => met.append _ _ _ _ ((recorded.named _).mp inLater),
      List.pairwise_singleton _ _, fun earlier known later last => ?_⟩
    rw [List.mem_singleton.mp last]
    exact metBefore_new _ earlier name ((recorded.named earlier).mp known) unread
  · intro entry member
    rw [levelsOf_concat]
    rcases List.mem_append.mp member with old | last
    · have different : entry.1 ≠ name := fun same => absent (List.mem_map.mpr ⟨entry, old, same⟩)
      rw [if_neg different, List.append_nil, recorded.levels entry old]
    · rw [List.mem_singleton.mp last, if_pos rfl, levelsOf_eq_nil mentions name unread, List.nil_append]
  · simp [recorded.total]

end Recorded

theorem Recorded.again (mentions : List (String × Level)) (before after : List (String × List Level)) (name : String)
    (levels : List Level) (level : Level) (recorded : Recorded mentions (before ++ (name, levels) :: after)) :
    Recorded (mentions ++ [(name, level)]) (before ++ (name, levels ++ [level]) :: after) := by
  have sameNames : (before ++ (name, levels ++ [level]) :: after).map (·.1) =
      (before ++ (name, levels) :: after).map (·.1) := by simp
  have read : name ∈ mentions.map (·.1) := (recorded.named name).mp (by simp)
  have elsewhere : name ∉ before.map (·.1) ∧ name ∉ after.map (·.1) := by
    have distinct := nodup_of_metBefore _ _ recorded.inOrder
    rw [List.map_append, List.map_cons, List.nodup_middle, List.nodup_cons, List.mem_append, not_or] at distinct
    exact distinct.1
  have others (entry : String × List Level) (member : entry ∈ before ∨ entry ∈ after) : entry.1 ≠ name := by
    rintro rfl
    exact member.elim (fun early => elsewhere.1 (List.mem_map_of_mem early))
      fun late => elsewhere.2 (List.mem_map_of_mem late)
  refine ⟨fun other => ?_, ?_, ?_, ?_⟩
  · rw [sameNames, recorded.named other, List.map_append, List.mem_append]
    refine ⟨.inl, fun found => found.elim id fun last => ?_⟩
    rwa [List.mem_singleton.mp last]
  · rw [sameNames, List.map_append]
    exact recorded.inOrder.imp_of_mem fun _ inLater met => met.append _ _ _ _ ((recorded.named _).mp inLater)
  · intro entry member
    have unchanged (old : entry ∈ before ∨ entry ∈ after) :
        entry.2 = levelsOf (mentions ++ [(name, level)]) entry.1 := by
      rw [levelsOf_concat, if_neg (others entry old), List.append_nil]
      exact recorded.levels entry (old.elim (List.mem_append_left _) fun late => by simp [late])
    rcases List.mem_append.mp member with early | late
    · exact unchanged (.inl early)
    · rcases List.mem_cons.mp late with rfl | late
      · rw [levelsOf_concat, if_pos rfl, ← recorded.levels (name, levels) (by simp)]
      · exact unchanged (.inr late)
  · have total := recorded.total
    simp only [List.map_append, List.map_cons, List.sum_append, List.sum_cons, List.length_append, List.length_cons,
      List.length_nil] at total ⊢
    omega

theorem Recorded.record (mentions : List (String × Level)) (gained : List (String × List Level))
    (recorded : Recorded mentions gained) (name : String) (level : Level) :
    Recorded (mentions ++ [(name, level)]) (Table.record name level gained) := by
  rcases record_cases name level gained with ⟨absent, placed⟩ | ⟨before, levels, after, rfl, placed⟩
  · rw [placed]
    exact recorded.new mentions gained name level absent
  · rw [placed]
    exact recorded.again mentions before after name levels level

def rowMentions (row : Row) : List (String × Level) := row.features.map fun name => (name, row.level)

def mentions (table : Table) : List (String × Level) := table.rows.flatMap rowMentions

theorem Recorded.recordRow (mentions : List (String × Level)) (gained : List (String × List Level))
    (recorded : Recorded mentions gained) (row : Row) :
    Recorded (mentions ++ rowMentions row) (Table.recordRow gained row) := by
  unfold rowMentions Table.recordRow
  generalize row.features = names
  induction names generalizing mentions gained with
  | nil => simpa using recorded
  | cons name rest ih =>
      have next := ih _ _ (recorded.record mentions gained name row.level)
      rwa [List.append_assoc] at next

theorem recorded_featureLevels (table : Table) : Recorded table.mentions table.featureLevels := by
  have run : ∀ (rows : List Row) (read : List (String × Level)) (gained : List (String × List Level)),
      Recorded read gained → Recorded (read ++ rows.flatMap rowMentions) (rows.foldl Table.recordRow gained) := by
    intro rows
    induction rows with
    | nil => intro read gained recorded; simpa using recorded
    | cons row rest ih =>
        intro read gained recorded
        have next := ih _ _ (recorded.recordRow read gained row)
        rwa [List.append_assoc] at next
  exact run table.rows [] [] ⟨by simp, .nil, by simp, rfl⟩

def names (table : Table) : List String := table.rows.flatMap (·.features)

@[simp]
theorem mentions_names (table : Table) : table.mentions.map (·.1) = table.names := by
  rw [mentions, names, List.map_flatMap]
  refine List.flatMap_congr fun row _ => ?_
  rw [rowMentions, List.map_map]
  exact List.map_id _

theorem levelsOf_mentions (table : Table) (name : String) :
    levelsOf table.mentions name = table.rows.flatMap fun row => List.replicate (row.features.count name) row.level := by
  rw [levelsOf, mentions, List.filter_flatMap, List.map_flatMap]
  refine List.flatMap_congr fun row _ => ?_
  rw [rowMentions, List.filter_map, List.map_map, List.count_eq_length_filter]
  exact List.map_const'

theorem head?_levelsOf (mentions : List (String × Level)) (name : String) :
    (levelsOf mentions name).head? = (mentions[(mentions.map (·.1)).idxOf name]?).map (·.2) := by
  induction mentions with
  | nil => rfl
  | cons mention rest ih =>
      by_cases same : mention.1 = name
      · simp [levelsOf, same]
      · have later : levelsOf (mention :: rest) name = levelsOf rest name := by simp [levelsOf, same]
        rw [later, ih, List.map_cons, List.idxOf_cons_ne _ same, List.getElem?_cons_succ]

theorem inhabited_featureLevels (table : Table) : ∀ entry ∈ table.featureLevels, entry.2 ≠ [] := by
  intro entry member none
  have recorded := recorded_featureLevels table
  have read := (recorded.named entry.1).mp (List.mem_map_of_mem member)
  obtain ⟨mention, given, same⟩ := List.mem_map.mp read
  rw [recorded.levels entry member, levelsOf, List.map_eq_nil_iff, List.filter_eq_nil_iff] at none
  exact none mention given (by simpa using same)

structure Inverts (table : Table) (gained : List (String × List Level)) : Prop where
  distinct : (gained.map (·.1)).Nodup
  named : ∀ name, name ∈ gained.map (·.1) ↔ ∃ row ∈ table.rows, name ∈ row.features
  inOrder : (gained.map (·.1)).Pairwise (MetBefore table.names)
  levels : ∀ entry ∈ gained,
    entry.2 = table.rows.flatMap fun row => List.replicate (row.features.count entry.1) row.level
  inhabited : ∀ entry ∈ gained, entry.2 ≠ []
  total : (gained.map (·.2.length)).sum = (table.rows.map (·.features.length)).sum

theorem inverts_featureLevels (table : Table) : Inverts table table.featureLevels where
  distinct := nodup_of_metBefore _ _ (recorded_featureLevels table).inOrder
  named name := by
    rw [(recorded_featureLevels table).named, mentions_names, names, List.mem_flatMap]
  inOrder := by
    have inOrder := (recorded_featureLevels table).inOrder
    rwa [mentions_names] at inOrder
  levels entry member := by
    rw [(recorded_featureLevels table).levels entry member, levelsOf_mentions]
  inhabited := inhabited_featureLevels table
  total := by
    rw [(recorded_featureLevels table).total, mentions, List.length_flatMap]
    simp [rowMentions]

-- The names and their order leave no choice, and neither do the levels.
theorem Inverts.unique (table : Table) (left right : List (String × List Level)) (inverts : Inverts table left)
    (alsoInverts : Inverts table right) : left = right := by
  have names : left.map (·.1) = right.map (·.1) := by
    refine List.Perm.eq_of_pairwise ?_ inverts.inOrder alsoInverts.inOrder ?_
    · intro one other _ _ met back
      exact absurd met (Nat.lt_asymm back)
    · rw [List.perm_ext_iff_of_nodup inverts.distinct alsoInverts.distinct]
      exact fun name => (inverts.named name).trans (alsoInverts.named name).symm
  have spelled (gained : List (String × List Level)) (inverts : Inverts table gained) :
      gained = (gained.map (·.1)).map fun name =>
        (name, table.rows.flatMap fun row => List.replicate (row.features.count name) row.level) := by
    rw [List.map_map]
    refine (List.map_id gained).symm.trans (List.map_congr_left fun entry member => ?_)
    exact Prod.ext rfl (inverts.levels entry member)
  rw [spelled left inverts, spelled right alsoInverts, names]

-- What it says where the levels of the table are in order. A level comes again only where its row names the feature
-- again.
structure Climbs (table : Table) (gained : List (String × List Level)) : Prop where
  ascending : ∀ entry ∈ gained, entry.2.Pairwise (· ≤ ·)
  repeated : ∀ entry ∈ gained, ∀ row ∈ table.rows, entry.2.count row.level = row.features.count entry.1
  firsts : (gained.filterMap (·.2.head?)).Pairwise (· ≤ ·)

section Ascending

variable (table : Table) (ascending : table.rows.Pairwise fun lower higher => lower.level < higher.level)
include ascending

theorem mentions_ascending : table.mentions.Pairwise fun earlier later => earlier.2 ≤ later.2 := by
  rw [mentions, List.pairwise_flatMap]
  constructor
  · intro row _
    rw [rowMentions, List.pairwise_map]
    exact List.pairwise_of_forall fun _ _ => UInt32.le_refl _
  · refine ascending.imp fun {lower higher} less => ?_
    intro earlier inLower later inHigher
    obtain ⟨_, _, rfl⟩ := List.mem_map.mp inLower
    obtain ⟨_, _, rfl⟩ := List.mem_map.mp inHigher
    exact UInt32.le_of_lt less

theorem count_of_row (row : Row) (inRows : row ∈ table.rows) (times : Row → Nat) :
    (table.rows.flatMap fun other => List.replicate (times other) other.level).count row.level = times row := by
  obtain ⟨before, after, parts⟩ := List.append_of_mem inRows
  rw [parts, List.pairwise_append, List.pairwise_cons] at ascending
  obtain ⟨_, ⟨above, _⟩, below⟩ := ascending
  have elsewhere (rows : List Row) (apart : ∀ other ∈ rows, other.level ≠ row.level) :
      (rows.flatMap fun other => List.replicate (times other) other.level).count row.level = 0 := by
    rw [List.count_eq_zero, List.mem_flatMap]
    rintro ⟨other, member, found⟩
    exact apart other member (List.eq_of_mem_replicate found).symm
  rw [parts, List.flatMap_append, List.flatMap_cons, List.count_append, List.count_append, List.count_replicate_self,
    elsewhere before fun other member => UInt32.ne_of_lt (below other member row List.mem_cons_self),
    elsewhere after fun other member => (UInt32.ne_of_lt (above other member)).symm]
  omega

theorem climbs_featureLevels : Climbs table table.featureLevels where
  ascending entry member := by
    rw [(recorded_featureLevels table).levels entry member, levelsOf, List.pairwise_map]
    exact (mentions_ascending table ascending).filter _
  repeated entry member row inRows := by
    rw [(recorded_featureLevels table).levels entry member, levelsOf_mentions]
    exact count_of_row table ascending row inRows fun other => other.features.count entry.1
  firsts := by
    have recorded := recorded_featureLevels table
    refine List.pairwise_filterMap.mpr ((List.pairwise_map.mp recorded.inOrder).imp_of_mem ?_)
    intro entry other member otherMember met first starts second begins
    rw [recorded.levels entry member, head?_levelsOf, Option.map_eq_some_iff] at starts
    rw [recorded.levels other otherMember, head?_levelsOf, Option.map_eq_some_iff] at begins
    obtain ⟨earlier, atEarlier, rfl⟩ := starts
    obtain ⟨later, atLater, rfl⟩ := begins
    obtain ⟨_, rfl⟩ := List.getElem?_eq_some_iff.mp atEarlier
    obtain ⟨_, rfl⟩ := List.getElem?_eq_some_iff.mp atLater
    exact List.pairwise_iff_getElem.mp (mentions_ascending table ascending) _ _ _ _ met

end Ascending

-- Any table, any that a draft comes to, and any merged one.
theorem levels_invert_table :
    (∀ table gained, Inverts table gained ↔ gained = table.featureLevels) ∧
    (∀ extent shares, let table := ((Draft.blank extent).applyAll shares).finish
      Climbs table table.featureLevels) ∧
    ∀ tables table, merge tables = .ok table → Climbs table table.featureLevels := by
  refine ⟨fun table gained => ⟨fun inverts => ?_, ?_⟩, fun extent shares => ?_, fun tables table merged => ?_⟩
  · exact inverts.unique table gained _ (inverts_featureLevels table)
  · rintro rfl
    exact inverts_featureLevels table
  · exact climbs_featureLevels _ (finished_finish extent shares).ascending
  · exact climbs_featureLevels table (finished_of_merge tables table merged).ascending

-- A feature that one row names twice and two rows name, from tables whose rows are not in order.
theorem named_twice_in_a_row :
    let first : Table := ⟨[⟨3, ["Surge"], {}⟩, ⟨1, ["Rage", "Rage"], {}⟩]⟩
    let second : Table := ⟨[⟨1, ["Surge"], {}⟩]⟩
    Inverts first [("Surge", [3]), ("Rage", [1, 1])] ∧
      ∃ table, merge [first, second] = .ok table ∧ table.featureLevels = [("Rage", [1, 1]), ("Surge", [1, 3])] ∧
        Climbs table table.featureLevels := by
  intro first second
  obtain ⟨table, merged⟩ : ∃ table, merge [first, second] = .ok table := ⟨_, rfl⟩
  have listed : (merge [first, second]).toOption.map featureLevels = some [("Rage", [1, 1]), ("Surge", [1, 3])] := by
    decide +kernel
  rw [merged] at listed
  obtain ⟨inverts, _, climbs⟩ := levels_invert_table
  exact ⟨(inverts first _).mpr (by decide +kernel), table, merged, Option.some.inj listed, climbs _ table merged⟩

end ClassProgression.Table
