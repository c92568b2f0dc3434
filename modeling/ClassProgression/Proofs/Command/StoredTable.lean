import ClassProgression.Proofs.Catalog.RoundTrip
import ClassProgression.Proofs.Command.Report
import ClassProgression.Proofs.Table.Finished
import ClassProgression.Proofs.Table.Floats

namespace ClassProgression

namespace Table

theorem read?_line (table : Table) (ordinary : ∀ row ∈ table.rows, row.Ordinary)
    (legible : ∀ number ∈ table.floats, Json.Legible number) : read? (Command.line table.pretty) = some table := by
  have chars : (Command.line table.pretty).toList = Json.prettyChars 0 table.toJson ++ ['\n'] := by
    rw [Command.line, pretty, Json.pretty, String.toList_append, String.toList_ofList]
    rfl
  have finds := Json.finds_pretty Json.maxDepth table.toJson (table.readable_toJson legible) 0
  have blank : Json.Blank ['\n'] := by simp [Json.Blank, Json.isBlank]
  rw [read?, Json.read?, chars, Json.readChars?_blank _ _ finds _ blank]
  exact table.ofJson?_toJson ordinary

end Table

namespace Command

theorem fromUTF8?_toUTF8 (text : String) : String.fromUTF8? text.toUTF8 = some text := dif_pos text.isValidUTF8

theorem read_stored (files : Files) (path text : String) (stored : files path = .file text.toUTF8) :
    files.read path = .ok text := by
  rw [Files.read, stored]
  simp only [fromUTF8?_toUTF8]

theorem result_of_outcome (report : Report) (succeeded : report.outcome.status = 0) :
    report.result = .ok report.outcome.stdout := by
  unfold Report.outcome at succeeded ⊢
  split at succeeded
  · rename_i text found
    rw [found]
  · cases succeeded

theorem after_eq_ok (step : Except Failure α) (next : α → Report) (text : String)
    (reached : (Report.after step next).result = .ok text) : ∃ value, step = .ok value ∧ (next value).result = .ok text := by
  cases step with
  | ok value => exact ⟨value, rfl, reached⟩
  | error failure => cases reached

@[simp]
theorem result_notingIf (report : Report) (condition : Bool) (note : String) :
    (report.notingIf condition note).result = report.result := by
  cases condition <;> rfl

theorem runTable_eq_ok (files : Files) (invocation : Invocation) (options : TableOptions) (text : String)
    (whole : options.summary = false) (printed : (runTable files invocation options).result = .ok text) :
    ∃ catalog extent, loadCatalog files options.bundle = .ok catalog ∧
      text = line (Table.composeClass catalog options.className extent).pretty := by
  obtain ⟨settings, _, printed⟩ := after_eq_ok _ _ text printed
  obtain ⟨catalog, loaded, printed⟩ := after_eq_ok _ _ text printed
  refine ⟨catalog, ⟨options.maxLevel.getD (settings.maxLevelOf options.className), options.offset⟩, loaded, ?_⟩
  rw [result_notingIf, result_notingIf, whole] at printed
  exact (Except.ok.inj printed).symm

theorem loadCatalog_eq_ok (files : Files) (path : String) (catalog : Catalog) : loadCatalog files path = .ok catalog ↔
    ∃ text, files.read path = .ok text ∧ Catalog.ofBundle text = .ok catalog := by
  unfold loadCatalog readFile
  cases files.read path with
  | error reason => simp [Except.mapError, Bind.bind, Except.bind]
  | ok text => cases read : Catalog.ofBundle text <;> simp [read, Except.mapError, Bind.bind, Except.bind]

theorem reads_printed (files : Files) (invocation : Invocation) (options : TableOptions) (text : String)
    (whole : options.summary = false) (printed : (runTable files invocation options).result = .ok text)
    (legible : ∀ catalog, loadCatalog files options.bundle = .ok catalog →
      ∀ feature ∈ catalog.toList, ∀ number ∈ feature.floats, number.isFinite → Json.Legible number) :
    ∃ table : Table, text = line table.pretty ∧ Table.read? text = some table ∧ Table.merge [table] = .ok table := by
  obtain ⟨catalog, extent, loaded, rfl⟩ := runTable_eq_ok files invocation options text whole printed
  obtain ⟨bundle, _, read⟩ := (loadCatalog_eq_ok files options.bundle catalog).mp loaded
  have proper := Catalog.proper_of_ofBundle bundle catalog read
  refine ⟨_, rfl, Table.read?_line _ (Table.ordinary_of_finish extent _) fun number float => ?_, Table.merge_finish extent _⟩
  obtain ⟨feature, contributes, held⟩ := Table.mem_floats_compose _ _ extent number float
  have member : feature ∈ catalog.toList := (List.mem_filter.mp contributes).1
  exact legible catalog loaded feature member number held ((proper feature member).finite number held)

theorem outcome_runMerge (files : Files) (invocation : Invocation) (path text : String) (table : Table)
    (stored : files.read path = .ok text) (read : Table.read? text = some table)
    (merged : Table.merge [table] = .ok table) : ∃ note, (runMerge files invocation [path]).outcome =
      ⟨0, line table.pretty, if invocation.verbose then note else ""⟩ := by
  have loaded : loadTable files path = .ok table := by
    simp [loadTable, readFile, stored, read, Except.mapError, Bind.bind, Except.bind]
  refine ⟨"→ " ++ path ++ " (" ++ Nat.repr table.rows.length ++ " rows)\n", ?_⟩
  cases verbose : invocation.verbose <;>
    simp [runMerge, loadTables, loaded, merged, verbose, Report.outcome, Except.mapError, Except.map, Except.bind]

section CommandLine

theorem nextWords?_plain (vocabulary : Vocabulary) (first : String) (rest : List String)
    (plain : first.toList.head? ≠ some '-') : nextWords? vocabulary first rest = some ([.plain first], rest) := by
  unfold nextWords?
  split
  case h_1 name chars => exact absurd (congrArg List.head? chars) plain
  case h_2 chars => rfl
  case h_3 letters _ chars => exact absurd (congrArg List.head? chars) plain
  case h_4 => rfl

theorem words?_plain (vocabulary : Vocabulary) (text : String) (plain : text.toList.head? ≠ some '-') :
    words? vocabulary [text] = some [.plain text] := by
  have unmarked : text ≠ "--" := by
    rintro rfl
    exact plain (by decide)
  rw [words?, if_neg unmarked, nextWords?_plain _ _ _ plain]
  simp [words?]

theorem optional?_path? (given : Option String) (settled : given ≠ some "") : optional? path? given = some given := by
  cases given with
  | none => rfl
  | some text =>
      have nonempty : text ≠ "" := fun same => settled (congrArg some same)
      simp [optional?, path?, nonempty]

theorem request?_merge (environment : Option String) (path : String) (settled : environment ≠ some "")
    (nonempty : path ≠ "") (plain : path.toList.head? ≠ some '-') :
    request? environment ["merge", path] = some (.invoke ⟨.merge [path], false, environment⟩) := by
  have action : mergeAction? [.plain path] = some (.merge [path]) := by
    simp [mergeAction?, plainWords, Word.plain?, path?, nonempty]
  have distinct : noneRepeated [.plain path] = true := rfl
  have invocation : invocation? environment [] "merge" [path] = some ⟨.merge [path], false, environment⟩ := by
    simp [invocation?, command?, words?_plain _ _ plain, action, value?, optional?_path? none (by simp),
      optional?_path? environment settled, distinct, hasFlag]
  rw [request?, requestFrom?, if_neg (by decide), nextWords?_plain _ _ _ (by decide)]
  simp [invocation]

end CommandLine

end Command

open Command in
-- With floats whose texts are taken to be read back. Whichever command line asks to merge this one file does it, and
-- there is one that does.
theorem stored_table_merges_to_itself (files : Files) (environment : Option String) (arguments : List String)
    (invocation : Invocation) (options : TableOptions)
    (requested : request? environment arguments = some (.invoke invocation)) (asked : invocation.action = .table options)
    (whole : options.summary = false)
    (legible : ∀ catalog, loadCatalog files options.bundle = .ok catalog →
      ∀ feature ∈ catalog.toList, ∀ number ∈ feature.floats, number.isFinite → Json.Legible number)
    (succeeded : (run files environment arguments).status = 0) (later : Files) (path : String)
    (stored : later path = .file (run files environment arguments).stdout.toUTF8) :
    (∀ around words merging, request? around words = some (.invoke merging) → merging.action = .merge [path] →
      (run later around words).status = 0 ∧ (run later around words).stdout = (run files environment arguments).stdout) ∧
    (path ≠ "" → path.toList.head? ≠ some '-' → ∀ around, around ≠ some "" →
      run later around ["merge", path] = ⟨0, (run files environment arguments).stdout, ""⟩) := by
  have tabled : run files environment arguments = (runTable files invocation options).outcome := by
    rw [run_invoke files environment arguments invocation requested, Invocation.report, asked]
  rw [tabled] at succeeded stored ⊢
  have printed := result_of_outcome _ succeeded
  obtain ⟨table, text, read, merged⟩ := reads_printed files invocation options _ whole printed legible
  have held := read_stored later path _ stored
  have merges (around words) (merging : Invocation) (requested : request? around words = some (.invoke merging))
      (asked : merging.action = .merge [path]) : ∃ note, run later around words =
        ⟨0, (runTable files invocation options).outcome.stdout, if merging.verbose then note else ""⟩ := by
    rw [run_invoke later around words merging requested, Invocation.report, asked, text]
    exact outcome_runMerge later merging path _ table held read merged
  refine ⟨fun around words merging requested asked => ?_, fun nonempty plain around settled => ?_⟩
  · obtain ⟨note, outcome⟩ := merges around words merging requested asked
    rw [outcome]
    exact ⟨rfl, rfl⟩
  · obtain ⟨note, outcome⟩ := merges around _ _ (request?_merge around path settled nonempty plain) rfl
    exact outcome

theorem stored_bard_table_merges_to_itself :
    let row : FragmentRow := ⟨2, NameMap.ofList [("Die", .scalar (.text "d8")), ("Rate", .scalar (.float 2.5))]⟩
    let feature : Feature := {slug := "a", classes := NameMap.ofList [("Bard", {progression := some [row]})]}
    let bundle := Json.listText [feature.toJson.compact]
    let files : Command.Files := fun path => if path = "bundle.json" then .file bundle.toUTF8 else .refused .missing
    let arguments := ["table", "--features", "bundle.json", "--class=Bard", "--max-level", "2"]
    let printed := Command.run files none arguments
    let later : Command.Files := fun path => if path = "bard.json" then .file printed.stdout.toUTF8 else .refused .missing
    printed.status = 0 ∧ (∃ table : Table, printed.stdout = table.pretty ++ "\n" ∧
      (table.rows.map fun row => row.columns.values) =
        [[none, none], [some (.scalar (.text "d8")), some (.scalar (.float 2.5))]]) ∧
      Command.run later none ["merge", "bard.json"] = ⟨0, printed.stdout, ""⟩ := by
  intro row feature bundle files arguments printed later
  let options : Command.TableOptions := {bundle := "bundle.json", className := "Bard", maxLevel := some 2}
  let invocation : Command.Invocation := {action := .table options}
  let catalog : Catalog := ⟨NameMap.ofList [("a", feature)], by decide +kernel⟩
  let table := Table.composeClass catalog "Bard" {maxLevel := 2}
  have requested : Command.request? none arguments = some (.invoke invocation) := by decide +kernel
  have floats : feature.floats = [2.5] := by decide +kernel
  have holds : catalog.toList = [feature] := by decide +kernel
  have legible : ∀ other ∈ catalog.toList, ∀ number ∈ other.floats, number.isFinite → Json.Legible number := by
    rw [holds]
    refine List.forall_mem_singleton.mpr ?_
    rw [floats]
    exact List.forall_mem_singleton.mpr fun _ => Json.legible_two_and_a_half
  have proper : ∀ other ∈ catalog.toList, other.Proper := by
    rw [holds]
    exact List.forall_mem_singleton.mpr ⟨by decide +kernel, by rw [floats]; decide +kernel⟩
  have read : Catalog.ofBundle bundle = .ok catalog := by
    have given := TextLayout.compact.ofBundle_toList _ catalog proper legible
    rwa [holds] at given
  have loaded : Command.loadCatalog files "bundle.json" = .ok catalog :=
    (Command.loadCatalog_eq_ok files _ catalog).mpr ⟨bundle, Command.read_stored files "bundle.json" bundle rfl, read⟩
  have contributes : (catalog.contributors "Bard").isEmpty = false := by decide +kernel
  have outcome : printed = ⟨0, table.pretty ++ "\n", ""⟩ := by
    have settings : Command.loadSettings files none = .ok {} := rfl
    rw [show printed = _ from Command.run_invoke files none arguments invocation requested]
    simp [Command.Invocation.report, invocation, Command.runTable, options, settings, loaded, contributes,
      Command.Report.after, Command.Report.notingIf, Command.Report.outcome, Command.line, table, String.join]
  have merges := stored_table_merges_to_itself files none arguments invocation options requested rfl rfl
    (fun other same => by
      obtain rfl : catalog = other := Except.ok.inj (loaded.symm.trans same)
      exact legible)
    (congrArg Command.Outcome.status outcome) later "bard.json" rfl
  refine ⟨congrArg Command.Outcome.status outcome, ⟨table, congrArg Command.Outcome.stdout outcome, by decide +kernel⟩, ?_⟩
  exact merges.2 (by decide) (by decide) none (by decide)

end ClassProgression
