import ClassProgression.NameMap.Lemmas
import ClassProgression.Proofs.Cell.RoundTrip
import ClassProgression.Proofs.Toml.Line
import ClassProgression.Settings.Toml

namespace ClassProgression.Settings

open Toml (Value Entries Pair Section Line Bare Heads Written)

def number (value : UInt32) : Value := .integer (Int64.ofNat value.toNat)

def classPairs (settings : ClassSettings) : List Pair :=
  (settings.name.map fun name => Pair.mk [] "name" (.text name)).toList ++
    (settings.maxLevel.map fun level => Pair.mk [] "max_level" (number level)).toList

def classLines (entry : String × ClassSettings) : List Line :=
  .header ⟨["classes"], entry.1, false, []⟩ :: (classPairs entry.2).map .pair

def classesLines (classes : NameMap ClassSettings) : List Line :=
  if classes.isEmpty then [.header ⟨[], "classes", false, []⟩]
  else [Line.blank].intercalate (classes.entries.map classLines)

def lines (settings : Settings) : List Line :=
  .header ⟨[], "compose", false, []⟩ :: .pair ⟨[], "max_level", number settings.maxLevel⟩ :: .blank ::
    classesLines settings.classes

section Writing

theorem toDigits_solid (n : Nat) (rest : List Char) :
    ∀ c ∈ (Nat.toDigits 10 n ++ rest).head?, Toml.isBlank c = false := by
  have each := Toml.isDigit_of_mem n
  cases digits : Nat.toDigits 10 n with
  | nil => exact absurd digits Nat.toDigits_ne_nil
  | cons c tail =>
      rintro d ⟨⟩
      refine Bool.eq_false_iff.mpr fun blank => ?_
      have digit := each c (digits ▸ List.mem_cons_self)
      simp only [Toml.isBlank, Bool.or_eq_true, beq_iff_eq] at blank
      rcases blank with rfl | rfl <;> cases digit

theorem writeText_solid (text rest : List Char) : ∀ c ∈ (Toml.writeText text ++ rest).head?, Toml.isBlank c = false := by
  obtain ⟨tail, chars | chars⟩ := Toml.writeText_head text
  all_goals
    rw [chars]
    rintro c ⟨⟩
    rfl

theorem bare_compose : Bare "compose".toList := ⟨by simp, by simp [Toml.isBareKeyChar]⟩

theorem bare_classes : Bare "classes".toList := ⟨by simp, by simp [Toml.isBareKeyChar]⟩

theorem bare_name : Bare "name".toList := ⟨by simp, by simp [Toml.isBareKeyChar]⟩

theorem bare_maxLevel : Bare "max_level".toList := ⟨by simp, by simp [Toml.isBareKeyChar]⟩

theorem heads_table (name : String) (bare : Bare name.toList) :
    Heads (.header ⟨[], name, false, []⟩) ('[' :: (name.toList ++ "]\n".toList)) := by
  have heads := Toml.heads_header ⟨[], name, false, []⟩ (name.toList ++ [']']) fun rest => by
    have read := Toml.header?_bare name.toList bare rest
    rw [String.ofList_toList] at read
    simpa using read
  simpa using heads

theorem heads_number (name : String) (bare : Bare name.toList) (value : UInt32) :
    Heads (.pair ⟨[], name, number value⟩) (writeNumber name value) := by
  have heads := Toml.heads_pair name.toList bare (Nat.toDigits 10 value.toNat) (number value) (toDigits_solid _)
    fun rest => Toml.value?_number value rest _
  rw [String.ofList_toList] at heads
  simpa [writeNumber] using heads

theorem heads_name (name : String) :
    Heads (.pair ⟨[], "name", .text name⟩) ("name = ".toList ++ Toml.writeText name.toList ++ ['\n']) := by
  have heads := Toml.heads_pair "name".toList bare_name (Toml.writeText name.toList)
    (.text (String.ofList name.toList)) (writeText_solid _) fun rest => Toml.value?_text _ _ rest
  rw [String.ofList_toList, String.ofList_toList] at heads
  simpa using heads

theorem classLines_eq (entry : String × ClassSettings) : classLines entry =
    [.header ⟨["classes"], entry.1, false, []⟩] ++
      (entry.2.name.map fun name => Line.pair ⟨[], "name", .text name⟩).toList ++
        (entry.2.maxLevel.map fun level => Line.pair ⟨[], "max_level", number level⟩).toList := by
  obtain ⟨slug, name, level⟩ := entry
  cases name <;> cases level <;> rfl

-- Stated by itself: unfolding the definition would evaluate its literals.
theorem writeClass_eq (entry : String × ClassSettings) : writeClass entry =
    "[classes.".toList ++ Toml.writeKey entry.1.toList ++ "]\n".toList ++
      (entry.2.name.elim [] fun name => "name = ".toList ++ Toml.writeText name.toList ++ ['\n']) ++
        (entry.2.maxLevel.elim [] (writeNumber "max_level")) := by
  obtain ⟨slug, name, level⟩ := entry
  cases name <;> cases level <;> rfl

theorem write_eq (settings : Settings) : settings.write =
    "[compose]\n".toList ++ writeNumber "max_level" settings.maxLevel ++ ['\n'] ++ writeClasses settings.classes := rfl

theorem heads_class (slug : String) : Heads (.header ⟨["classes"], slug, false, []⟩)
    ("[classes.".toList ++ Toml.writeKey slug.toList ++ "]\n".toList) := by
  have heads := Toml.heads_header ⟨["classes"], slug, false, []⟩
    ("classes".toList ++ '.' :: (Toml.writeKey slug.toList ++ [']'])) fun rest => by
      have read := Toml.header?_dotted "classes".toList bare_classes slug.toList rest
      rw [String.ofList_toList, String.ofList_toList] at read
      simpa using read
  simpa using heads

theorem written_class (entry : String × ClassSettings) : Written (classLines entry) (writeClass entry) := by
  obtain ⟨slug, name, level⟩ := entry
  have named : Written (name.map fun name => Line.pair ⟨[], "name", .text name⟩).toList
      (name.elim [] fun name => "name = ".toList ++ Toml.writeText name.toList ++ ['\n']) := by
    cases name with
    | none => exact .nil
    | some name => exact .single _ _ (heads_name name)
  have levelled : Written (level.map fun level => Line.pair ⟨[], "max_level", number level⟩).toList
      (level.elim [] (writeNumber "max_level")) := by
    cases level with
    | none => exact .nil
    | some level => exact .single _ _ (heads_number "max_level" bare_maxLevel level)
  rw [classLines_eq, writeClass_eq]
  exact ((Written.single _ _ (heads_class slug)).append _ _ _ _ named).append _ _ _ _ levelled

theorem written_classes (classes : NameMap ClassSettings) : Written (classesLines classes) (writeClasses classes) := by
  have general : ∀ entries : List (String × ClassSettings), Written ([Line.blank].intercalate (entries.map classLines))
      (['\n'].intercalate (entries.map writeClass)) := by
    intro entries
    induction entries with
    | nil => exact .nil
    | cons entry rest ih =>
        cases rest with
        | nil => simpa using written_class entry
        | cons next others =>
            have blank := Written.single _ _ Toml.heads_blank
            have whole := (written_class entry).append _ _ _ _ (blank.append _ _ _ _ ih)
            simpa [List.intercalate_cons_cons] using whole
  unfold classesLines writeClasses
  split
  · have heads := heads_table "classes" bare_classes
    exact .single _ _ (by simpa using heads)
  · exact general classes.entries

theorem written_write (settings : Settings) : Written settings.lines settings.write := by
  have header := heads_table "compose" bare_compose
  have level := heads_number "max_level" bare_maxLevel settings.maxLevel
  have whole := Written.cons _ _ _ _ header (.cons _ _ _ _ level (.cons _ _ _ _ Toml.heads_blank
    (written_classes settings.classes)))
  have opened : '[' :: ("compose".toList ++ "]\n".toList) = "[compose]\n".toList := by simp
  rw [opened, ← List.append_assoc, ← List.append_assoc] at whole
  rw [write_eq]
  exact whole

end Writing

section Gathering

variable (rest : List Line)

theorem gather_pairs (pairs : List Pair) :
    Toml.gather (pairs.map .pair ++ rest) = (pairs ++ (Toml.gather rest).1, (Toml.gather rest).2) := by
  induction pairs with
  | nil => rfl
  | cons pair more ih => rw [List.map_cons, List.cons_append, Toml.gather, ih]; rfl

theorem gather_section (part : Section) (pairs : List Pair) (headed : (Toml.gather rest).1 = []) :
    Toml.gather (.header part :: (pairs.map .pair ++ rest)) = ([], {part with pairs := pairs} :: (Toml.gather rest).2) := by
  rw [Toml.gather, gather_pairs, headed, List.append_nil]

theorem gather_blank : Toml.gather (.blank :: rest) = Toml.gather rest := rfl

def commonSection (maxLevel : UInt32) : Section := ⟨[], "compose", false, [⟨[], "max_level", number maxLevel⟩]⟩

def classSection (entry : String × ClassSettings) : Section := ⟨["classes"], entry.1, false, classPairs entry.2⟩

def classesSections (classes : NameMap ClassSettings) : List Section :=
  if classes.isEmpty then [⟨[], "classes", false, []⟩] else classes.entries.map classSection

theorem gather_class (entry : String × ClassSettings) (headed : (Toml.gather rest).1 = []) :
    Toml.gather (classLines entry ++ rest) = ([], classSection entry :: (Toml.gather rest).2) :=
  gather_section rest ⟨["classes"], entry.1, false, []⟩ (classPairs entry.2) headed

omit rest in
theorem gather_classes (classes : NameMap ClassSettings) :
    Toml.gather (classesLines classes) = ([], classesSections classes) := by
  have general : ∀ entries : List (String × ClassSettings),
      Toml.gather ([Line.blank].intercalate (entries.map classLines)) = ([], entries.map classSection) := by
    intro entries
    induction entries with
    | nil => rfl
    | cons entry others ih =>
        cases others with
        | nil =>
            have only := gather_class [] entry rfl
            rw [List.append_nil] at only
            rw [List.map_singleton, List.intercalate_singleton]
            exact only
        | cons next more =>
            have blank := gather_blank ([Line.blank].intercalate ((next :: more).map classLines))
            rw [List.map_cons, List.map_cons, List.intercalate_cons_cons, ← List.map_cons, List.append_assoc,
              gather_class _ entry (by rw [List.singleton_append, blank, ih]), List.singleton_append, blank, ih]
            rfl
  unfold classesLines classesSections
  split
  · rfl
  · exact general classes.entries

omit rest in
theorem gather_lines (settings : Settings) :
    Toml.gather settings.lines = ([], commonSection settings.maxLevel :: classesSections settings.classes) := by
  have blank := gather_blank (classesLines settings.classes)
  rw [gather_classes] at blank
  have whole := gather_section (.blank :: classesLines settings.classes) ⟨[], "compose", false, []⟩
    [⟨[], "max_level", number settings.maxLevel⟩] (by rw [blank])
  rw [blank] at whole
  exact whole

end Gathering

section Assembling

def classEntries (settings : ClassSettings) : Entries :=
  (settings.name.map fun name => ("name", Value.text name)).toList ++
    (settings.maxLevel.map fun level => ("max_level", number level)).toList

def classTable (entry : String × ClassSettings) : String × Value := (entry.1, .table .header (classEntries entry.2))

def tables (maxLevel : UInt32) (origin : Toml.Origin) (classes : List (String × ClassSettings)) : Entries :=
  [("compose", .table .header [("max_level", number maxLevel)]), ("classes", .table origin (classes.map classTable))]

theorem addPairs?_classPairs (settings : ClassSettings) :
    Toml.Entries.addPairs? [] (classPairs settings) = some (classEntries settings) := by
  obtain ⟨name, level⟩ := settings
  cases name <;> cases level <;> rfl

theorem put_absent (name : String) (value : Value) (entries : Entries) (absent : ∀ entry ∈ entries, entry.1 ≠ name) :
    entries.put name value = entries ++ [(name, value)] := by
  induction entries with
  | nil => rfl
  | cons head rest ih =>
      rw [Toml.Entries.put, if_neg (absent head List.mem_cons_self),
        ih fun entry later => absent entry (List.mem_cons_of_mem head later)]
      rfl

theorem openTable?_absent (name : String) (pairs : List Pair) (entries : Entries)
    (absent : ∀ entry ∈ entries, entry.1 ≠ name) : Toml.Entries.openTable? name pairs entries =
      (Toml.Entries.addPairs? [] pairs).map fun body => entries ++ [(name, .table .header body)] := by
  have unheld : entries.find? name = none :=
    List.lookup_eq_none_iff.mpr fun entry member => by simpa using (absent entry member).symm
  simp only [Toml.Entries.openTable?, unheld, put_absent name _ entries absent]

theorem addSection?_first (maxLevel : UInt32) (entry : String × ClassSettings) :
    Toml.Entries.addSection? [("compose", .table .header [("max_level", number maxLevel)])] (classSection entry) =
      some (tables maxLevel .implied [entry]) := by
  have opened := openTable?_absent entry.1 (classPairs entry.2) [] fun _ none => nomatch none
  rw [addPairs?_classPairs] at opened
  simp [Toml.Entries.addSection?, classSection, Toml.Entries.atPath?, Toml.Entries.find?, List.lookup, opened,
    Toml.Entries.put, tables, classTable]

theorem addSection?_next (maxLevel : UInt32) (classes : List (String × ClassSettings)) (entry : String × ClassSettings)
    (fresh : ∀ other ∈ classes, other.1 ≠ entry.1) :
    Toml.Entries.addSection? (tables maxLevel .implied classes) (classSection entry) =
      some (tables maxLevel .implied (classes ++ [entry])) := by
  have opened := openTable?_absent entry.1 (classPairs entry.2) (classes.map classTable) fun table member => by
    obtain ⟨other, listed, rfl⟩ := List.mem_map.mp member
    exact fresh other listed
  rw [addPairs?_classPairs] at opened
  simp [Toml.Entries.addSection?, classSection, Toml.Entries.atPath?, Toml.Entries.find?, List.lookup, opened,
    Toml.Entries.put, tables, classTable]

theorem addSections?_classes (maxLevel : UInt32) (first : String × ClassSettings) (rest : List (String × ClassSettings))
    (ascending : NameMap.Ascending (first :: rest)) :
    ((first :: rest).map classSection).foldlM Toml.Entries.addSection?
        [("compose", .table .header [("max_level", number maxLevel)])] =
      some (tables maxLevel .implied (first :: rest)) := by
  have onward : ∀ (rest done : List (String × ClassSettings)), NameMap.Ascending (done ++ rest) →
      (rest.map classSection).foldlM Toml.Entries.addSection? (tables maxLevel .implied done) =
        some (tables maxLevel .implied (done ++ rest)) := by
    intro rest
    induction rest with
    | nil => intro done _; rw [List.append_nil]; rfl
    | cons entry later ih =>
        intro done ascending
        have fresh : ∀ other ∈ done, other.1 ≠ entry.1 := fun other member same =>
          String.lt_irrefl _ (same ▸ (List.pairwise_append.mp ascending).2.2 other member entry List.mem_cons_self)
        rw [List.map_cons, List.foldlM_cons, addSection?_next maxLevel done entry fresh]
        simpa using ih (done ++ [entry]) (by simpa using ascending)
  rw [List.map_cons, List.foldlM_cons, addSection?_first]
  exact onward rest [first] ascending

theorem entries?_sections (settings : Settings) : ∃ origin,
    (Toml.Document.mk [] (commonSection settings.maxLevel :: classesSections settings.classes)).entries? =
      some (tables settings.maxLevel origin settings.classes.entries) := by
  obtain ⟨maxLevel, ⟨entries, ascending⟩⟩ := settings
  cases entries with
  | nil => exact ⟨.header, rfl⟩
  | cons first rest => exact ⟨.implied, addSections?_classes maxLevel first rest ascending⟩

end Assembling

section Decoding

theorem word32?_number (value : UInt32) : word32? (number value) = some value := by
  have small : value.toNat < 2 ^ 63 := Nat.lt_trans value.toNat_lt (by decide)
  rw [number, word32?, Int64.toInt_ofNat_of_lt small, Integer.unsigned32_toNat]

theorem class?_classTable (entry : String × ClassSettings) : class? (classTable entry).2 = some entry.2 := by
  obtain ⟨slug, name, level⟩ := entry
  cases name <;> cases level <;>
    simp [classTable, class?, classEntries, Toml.Entries.find?, List.lookup, classParts?, optional?, text?, word32?_number]

theorem classes?_tables (origin : Toml.Origin) (classes : NameMap ClassSettings) :
    classes? (.table origin (classes.entries.map classTable)) = some classes := by
  have entries := Json.mapM_written
    (fun table : String × Value => (class? table.2).map fun settings => (table.1, settings)) classTable classes.entries
    fun entry _ => by rw [class?_classTable]; rfl
  rw [classes?, entries, Option.map_some, NameMap.ofList_entries]

theorem ofEntries?_tables (settings : Settings) (origin : Toml.Origin) :
    ofEntries? (tables settings.maxLevel origin settings.classes.entries) = some settings := by
  have classes := classes?_tables origin settings.classes
  simp [ofEntries?, tables, Toml.Entries.find?, List.lookup, optional?, maxLevel?, word32?_number, classes]

end Decoding

theorem settings_round_trip (settings : Settings) : ofToml settings.toToml = .ok settings := by
  have noMark : settings.write.head? ≠ some Toml.byteOrderMark := by
    have opened : "[compose]\n".toList = '[' :: "compose]\n".toList := by simp
    rw [write_eq, opened]
    exact fun same => absurd (Option.some.inj same) (by decide)
  have document := (written_write settings).document? _ _ noMark
  obtain ⟨origin, entries⟩ := entries?_sections settings
  rw [gather_lines] at document
  have read : read? settings.toToml = some settings := by
    rw [read?, Toml.read?, toToml, String.toList_ofList, document, Option.bind_some, entries, Option.bind_some,
      ofEntries?_tables]
  rw [ofToml, read]

end ClassProgression.Settings
