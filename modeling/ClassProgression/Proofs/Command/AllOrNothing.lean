import ClassProgression.Proofs.Command.Console
import ClassProgression.Proofs.Command.LeadingOptions

namespace ClassProgression

namespace Command

theorem outcome_congr (left right : Report) (same : left.result = right.result) :
    left.outcome.status = right.outcome.status ∧ left.outcome.stdout = right.outcome.stdout := by
  unfold Report.outcome
  rw [same]
  cases right.result <;> exact ⟨rfl, rfl⟩

@[simp]
theorem result_after (step : Except Failure α) (next : α → Report) :
    (Report.after step next).result = step.bind fun value => (next value).result := by
  cases step <;> rfl

theorem loadTables_verbose (files : Files) (paths : List String) (verbose : Bool) :
    (loadTables files verbose paths).2 = (loadTables files false paths).2 := by
  induction paths with
  | nil => rfl
  | cons path rest ih =>
      unfold loadTables
      cases loadTable files path with
      | error failure => rfl
      | ok table => simp only [ih]

theorem Invocation.result_verbose (files : Files) (invocation : Invocation) (verbose : Bool) :
    (Invocation.report files {invocation with verbose := verbose}).result = (invocation.report files).result := by
  unfold Invocation.report
  cases invocation.action with
  | table options => simp [runTable]
  | merge paths =>
      simp only [runMerge]
      rw [loadTables_verbose, loadTables_verbose _ _ invocation.verbose]
  | describe options => simp [runDescribe]
  | levels levels => rfl

end Command

open Command Text in
-- A text that the output refuses is the only failure behind anything printed. While every piece is taken, a failed command
-- has printed nothing, one more `-v` in front of the command changes neither status nor output, and a summary is printed
-- whenever there is a table to summarize.
theorem prints_all_or_nothing (files : Files) (environment : Option String) (arguments : List String)
    (invocation : Invocation) (requested : request? environment arguments = some (.invoke invocation)) (console : Console) :
    let ended := runOn console files environment arguments
    (ended.1 = 1 → ended.2.output = [] ∨ BrokenOff console (invocation.session files).pieces ended.2.output) ∧
    (console.Open →
      (ended.1 = 1 → ended.2.output = []) ∧
      (invocation.verbose = false → ∀ front back words, arguments = front ++ back →
        words? leadingVocabulary front = some words → plainWords words = [] →
        let noted := runOn console files environment (front ++ "-v" :: back)
        request? environment (front ++ "-v" :: back) = some (.invoke {invocation with verbose := true}) ∧
        noted.1 = ended.1 ∧ noted.2.output = ended.2.output) ∧
      ∀ options settings catalog, invocation.action = .table options → options.summary = true →
        loadSettings files invocation.settingsPath = .ok settings → loadCatalog files options.bundle = .ok catalog →
        let extent : Extent := ⟨options.maxLevel.getD (settings.maxLevelOf options.className), options.offset⟩
        let entries := (Table.composeClass catalog options.className extent).featureLevels
        (∀ entry ∈ entries, entry.2 ≠ []) ∧ ended.1 = 0 ∧
        ∃ lines, entries.mapM levelsLine = .ok lines ∧
          ended.2.output = bytes (line (settings.displayName options.className) ++ String.join lines)) := by
  intro ended
  have settled := invocation.allOrNothing_session files
  have performed : ended = ((invocation.session files).perform console.write).run {} := by
    simp only [ended, runOn, runWith, requested]
  have broken : ended.1 = 1 → ended.2.output = [] ∨ BrokenOff console (invocation.session files).pieces ended.2.output := by
    rw [performed]
    exact left_behind console (invocation.session files) settled
  refine ⟨broken, fun opened => ?_⟩
  have shown (line : List String) (other : Invocation) (asked : request? environment line = some (.invoke other)) :
      (runOn console files environment line).1 = (other.report files).outcome.status ∧
        (runOn console files environment line).2.output = bytes (other.report files).outcome.stdout := by
    obtain ⟨status, output, _⟩ := runOn_open console opened files environment line
    rw [run_invoke files environment line other asked] at status output
    exact ⟨status, output⟩
  obtain ⟨status, output⟩ := shown arguments invocation requested
  refine ⟨fun failed => ?_, ?_, ?_⟩
  · obtain silent | ⟨before, text, _, through, reason, _, refused, _⟩ := broken failed
    · exact silent
    · cases (opened before (.printed text)).symm.trans refused
  · rintro quiet front back words rfl read options
    have again := request?_verbose environment front back words read options invocation quiet requested
    obtain ⟨notedStatus, notedOutput⟩ := shown _ _ again
    obtain ⟨sameStatus, sameOutput⟩ := outcome_congr _ _ (invocation.result_verbose files true)
    refine ⟨again, ?_, ?_⟩
    · rw [notedStatus, sameStatus, ← status]
    · rw [notedOutput, sameOutput, ← output]
  · intro options settings catalog asked summarized set loaded extent entries
    have inhabited := Table.inhabited_featureLevels (Table.composeClass catalog options.className extent)
    obtain ⟨lines, phrased⟩ := mapM_levelsLine entries inhabited
    have composed : (invocation.report files).result = .ok (line (settings.displayName options.className) ++ String.join lines) := by
      simp only [Invocation.report, asked, runTable, result_after, set, loaded, Except.bind, result_notingIf, summarized,
        if_true, summary]
      rw [show (Table.composeClass catalog options.className extent).featureLevels.mapM levelsLine = _ from phrased]
      rfl
    obtain ⟨printedStatus, printedOutput⟩ := outcome_congr (invocation.report files) ⟨[], .ok _⟩ composed
    refine ⟨inhabited, ?_, lines, phrased, ?_⟩
    · rw [status, printedStatus]
      rfl
    · rw [output, printedOutput]
      rfl

open Command Text in
-- The feature that is asked for is missed after the catalog has been noted. The summary phrases two levels of one feature.
theorem missing_song_prints_nothing :
    let bundle := "[\x7b\"slug\":\"rage\",\"classes\":\x7b\"Bard\":\x7b\"progression\":[" ++
      "\x7b\"Level\":1,\"Feature\":\"Rage\"\x7d,\x7b\"Level\":3,\"Feature\":\"Rage\"\x7d]\x7d\x7d\x7d]"
    let files : Files := fun path => if path = "bundle.json" then .file bundle.toUTF8
      else if path = "book.toml" then .file "".toUTF8 else .refused .missing
    let terminal : Console := fun _ _ => .taken
    let command := ["describe", "--features", "bundle.json", "--class", "Bard", "--feature", "song"]
    let failing := runOn terminal files none (["--config", "book.toml"] ++ command)
    let noted := runOn terminal files none (["--config", "book.toml"] ++ "-v" :: command)
    let summarized := runOn terminal files none
      ["table", "--features", "bundle.json", "--class", "Bard", "--summary", "--max-level", "4"]
    failing.1 = 1 ∧ failing.2.output = [] ∧ noted.1 = failing.1 ∧ noted.2.output = failing.2.output ∧
    summarized.1 = 0 ∧ summarized.2.output = bytes "Bard\n  Rage: 1st level and again at 3rd level\n" := by
  intro bundle files terminal command failing noted summarized
  let describing : Invocation :=
    {action := .describe {bundle := "bundle.json", className := "Bard", slug := some "song"}, settingsPath := some "book.toml"}
  let options : TableOptions := {bundle := "bundle.json", className := "Bard", maxLevel := some 4, summary := true}
  let rows : List FragmentRow := [⟨1, NameMap.ofList [("Feature", .scalar (.text "Rage"))]⟩,
    ⟨3, NameMap.ofList [("Feature", .scalar (.text "Rage"))]⟩]
  let feature : Feature := {slug := "rage", classes := NameMap.ofList [("Bard", {progression := some rows})]}
  let catalog : Catalog := ⟨NameMap.ofList [("rage", feature)], by decide +kernel⟩
  have loaded : loadCatalog files "bundle.json" = .ok catalog := by decide +kernel
  have phrased : (Table.composeClass catalog "Bard" ⟨4, 0⟩).featureLevels.mapM levelsLine =
    .ok ["  Rage: 1st level and again at 3rd level\n"] := by cbv
  have text : line (Settings.displayName {} "Bard") ++ String.join ["  Rage: 1st level and again at 3rd level\n"] =
    "Bard\n  Rage: 1st level and again at 3rd level\n" := by decide +kernel
  have opened : terminal.Open := fun _ _ => rfl
  obtain ⟨silent, verbosity, _⟩ := (prints_all_or_nothing files none (["--config", "book.toml"] ++ command) describing
    (by decide +kernel) terminal).2 opened
  have failed : failing.1 = 1 := by decide +kernel
  obtain ⟨_, status, output⟩ := verbosity rfl ["--config", "book.toml"] command [.option "config" "book.toml"] rfl
    (by decide +kernel) rfl
  obtain ⟨_, _, summary⟩ := (prints_all_or_nothing files none
    ["table", "--features", "bundle.json", "--class", "Bard", "--summary", "--max-level", "4"]
    {action := .table options} (by decide +kernel) terminal).2 opened
  obtain ⟨_, succeeded, lines, known, printed⟩ := summary options {} catalog rfl rfl rfl loaded
  cases known.symm.trans phrased
  exact ⟨failed, silent failed, status, output, succeeded, printed.trans (congrArg bytes text)⟩

open Command Text in
-- A reader that leaves after the first line and two bytes of the second.
example :
    let bundle := "[\x7b\"slug\":\"a\",\"template\":\"Roar.\",\"classes\":\x7b\"Bard\":\x7b\x7d\x7d\x7d," ++
      "\x7b\"slug\":\"b\",\"classes\":\x7b\"Bard\":\x7b\x7d\x7d\x7d]"
    let pipe : Console := fun handed piece =>
      if handed = [] ∨ piece.printed? = none then .taken else .refused 2 .brokenPipe
    let cut := runOn pipe (fun path => if path = "bundle.json" then .file bundle.toUTF8 else .refused .missing) none
      ["describe", "--features", "bundle.json", "--class", "Bard"]
    cut.1 = 1 ∧ cut.2.output = bytes "→ a\nRo" ∧ cut.2.errors = bytes "Error: Broken pipe (os error 32)\n" := by
  decide +kernel

end ClassProgression
