import ClassProgression.Command.Run
import ClassProgression.Proofs.Markup.Levels
import ClassProgression.Proofs.Table.FeatureLevels

namespace ClassProgression

namespace Command

-- A command as a whole: its notes in the order in which they are made, and all that it prints or the one error it ends with.
structure Report where
  notes : List String := []
  result : Except Failure String

namespace Report

def failed (failure : Failure) : Report := ⟨[], .error failure⟩

def noting (note : String) (report : Report) : Report := {report with notes := note :: report.notes}

def notingIf (condition : Bool) (note : String) (report : Report) : Report :=
  if condition then report.noting note else report

def after (step : Except Failure α) (next : α → Report) : Report :=
  match step with
  | .ok value => next value
  | .error failure => failed failure

end Report

def levelsLine (entry : String × List Level) : Except Failure String := do
  let phrase ← (Level.phrase entry.2).mapError fun cause => .fault (.tag cause)
  return line ("  " ++ entry.1 ++ ": " ++ phrase)

def summary (settings : Settings) (className : String) (table : Table) : Except Failure String :=
  (table.featureLevels.mapM levelsLine).map fun entries => line (settings.displayName className) ++ String.join entries

def runTable (files : Files) (invocation : Invocation) (options : TableOptions) : Report :=
  .after (loadSettings files invocation.settingsPath) fun settings =>
  .after (loadCatalog files options.bundle) fun catalog =>
    let extent : Extent := ⟨options.maxLevel.getD (settings.maxLevelOf options.className), options.offset⟩
    let table := Table.composeClass catalog options.className extent
    let report : Report := ⟨[],
      if options.summary then summary settings options.className table else .ok (line table.pretty)⟩
    (report.notingIf (catalog.contributors options.className).isEmpty
      ("⚠ No feature has a progression for class '" ++ options.className ++ "'\n")).notingIf
      invocation.verbose (loadedNote catalog options.bundle)

def loadTables (files : Files) (verbose : Bool) : List String → List String × Except Failure (List Table)
  | [] => ([], .ok [])
  | path :: rest =>
      match loadTable files path with
      | .error failure => ([], .error failure)
      | .ok table =>
          let (notes, tables) := loadTables files verbose rest
          let note := "→ " ++ path ++ " (" ++ Nat.repr table.rows.length ++ " rows)\n"
          (if verbose then note :: notes else notes, tables.map (table :: ·))

def runMerge (files : Files) (invocation : Invocation) (paths : List String) : Report :=
  let (notes, tables) := loadTables files invocation.verbose paths
  ⟨notes, tables.bind fun tables => ((Table.merge tables).mapError .fault).map fun table => line table.pretty⟩

-- A single description stands alone; several have their slugs above them and blank lines between them.
def descriptionsText (subject : Subject) (descriptions : List (String × String)) : String :=
  match descriptions with
  | [] => line ("⚠ No features are bound to class '" ++ subject.className ++ "'")
  | [only] => line only.2
  | several => "\n".intercalate (several.map fun entry => line ("→ " ++ entry.1) ++ line entry.2)

def runDescribe (files : Files) (invocation : Invocation) (options : DescribeOptions) : Report :=
  .after (loadSettings files invocation.settingsPath) fun settings =>
  .after (loadCatalog files options.bundle) fun catalog =>
    let subject : Subject := ⟨options.className, settings.displayName options.className⟩
    let report : Report := ⟨[], (describe catalog subject options.slug).map fun descriptions =>
      if options.json then line (descriptionsJson subject descriptions).pretty
      else descriptionsText subject descriptions⟩
    report.notingIf invocation.verbose (loadedNote catalog options.bundle)

def runLevels (levels : List Level) : Report :=
  ⟨[], ((Level.phrase levels).mapError fun cause => .fault (.tag cause)).map line⟩

def Invocation.report (files : Files) (invocation : Invocation) : Report :=
  match invocation.action with
  | .table options => runTable files invocation options
  | .merge paths => runMerge files invocation paths
  | .describe options => runDescribe files invocation options
  | .levels levels => runLevels levels

def Report.outcome (report : Report) : Outcome :=
  match report.result with
  | .ok text => ⟨0, text, String.join report.notes⟩
  | .error failure => ⟨1, "", String.join report.notes ++ failure.line⟩

theorem mapM_levelsLine (entries : List (String × List Level)) (inhabited : ∀ entry ∈ entries, entry.2 ≠ []) :
    ∃ lines, entries.mapM levelsLine = .ok lines := by
  induction entries with
  | nil => exact ⟨[], rfl⟩
  | cons head rest ih =>
      obtain ⟨first, later⟩ := List.forall_mem_cons.mp inhabited
      obtain ⟨phrase, known⟩ := Markup.phrase_of_ne_nil head.2 first
      obtain ⟨lines, below⟩ := ih later
      rw [List.mapM_cons, below, levelsLine, known]
      exact ⟨_, rfl⟩

theorem summary_eq_ok (settings : Settings) (className : String) (table : Table) :
    ∃ text, summary settings className table = .ok text := by
  obtain ⟨lines, known⟩ := mapM_levelsLine table.featureLevels table.inhabited_featureLevels
  rw [summary, known]
  exact ⟨_, rfl⟩

namespace Session

def printed (session : Session α) : List String := session.pieces.filterMap Piece.printed?

def notes (session : Session α) : List String := session.pieces.filterMap Piece.noted?

def AllOrNothing (session : Session α) : Prop := ∀ failure, session.result = .error failure → session.printed = []

def report (session : Session Unit) : Report :=
  ⟨session.notes, session.result.map fun _ => String.join session.printed⟩

section Steps

variable (session : Session α) (next : α → Session β)

theorem bind_ok (value : α) (ended : session.result = .ok value) :
    session >>= next = ⟨session.pieces ++ (next value).pieces, (next value).result⟩ := by
  simp only [Bind.bind, Session.bind, ended]

theorem bind_error (failure : Failure) (ended : session.result = .error failure) :
    session >>= next = ⟨session.pieces, .error failure⟩ := by
  simp only [Bind.bind, Session.bind, ended]

-- The step: a session that prints nothing may fail in front of one that prints all or nothing.
theorem AllOrNothing.bind (silent : session.printed = [])
    (settled : ∀ value, session.result = .ok value → (next value).AllOrNothing) : (session >>= next).AllOrNothing := by
  intro failure failed
  cases ended : session.result with
  | error earlier =>
      rw [bind_error session next earlier ended]
      exact silent
  | ok value =>
      rw [bind_ok session next value ended] at failed ⊢
      rw [printed, List.filterMap_append]
      exact List.append_eq_nil_iff.mpr ⟨silent, settled value ended failure failed⟩

theorem silent_bind (silent : session.printed = []) (rest : ∀ value, (next value).printed = []) :
    (session >>= next).printed = [] := by
  cases ended : session.result with
  | error failure => rwa [bind_error session next failure ended]
  | ok value =>
      rw [bind_ok session next value ended, printed, List.filterMap_append]
      exact List.append_eq_nil_iff.mpr ⟨silent, rest value⟩

theorem report_bind_ok (next : α → Session Unit) (silent : session.printed = []) (value : α)
    (ended : session.result = .ok value) :
    (session >>= next).report = ⟨session.notes ++ (next value).report.notes, (next value).report.result⟩ := by
  have behind : (session.pieces ++ (next value).pieces).filterMap Piece.printed? = (next value).printed := by
    rw [List.filterMap_append]
    exact congrArg (· ++ (next value).printed) silent
  simp only [bind_ok session next value ended, report, notes, printed, behind, List.filterMap_append]

end Steps

@[simp]
theorem silent_attempt (step : Except Failure α) : (attempt step).printed = [] := rfl

@[simp]
theorem silent_noteIf (condition : Bool) (text : String) : (noteIf condition text).printed = [] := by
  cases condition <;> rfl

@[simp]
theorem silent_openCatalog (files : Files) (verbose : Bool) (path : String) :
    (openCatalog files verbose path).printed = [] :=
  silent_bind _ _ (silent_attempt _) fun _ => silent_bind _ _ (silent_noteIf _ _) fun _ => rfl

@[simp]
theorem silent_openTables (files : Files) (verbose : Bool) (paths : List String) :
    (openTables files verbose paths).printed = [] := by
  induction paths with
  | nil => rfl
  | cons path rest ih =>
      exact silent_bind _ _ (silent_attempt _) fun _ => silent_bind _ _ (silent_noteIf _ _) fun _ =>
        silent_bind _ _ ih fun _ => rfl

section Reports

variable (text : String)

@[simp]
theorem report_attempt (step : Except Failure α) (next : α → Session Unit) :
    (attempt step >>= next).report = .after step fun value => (next value).report := by
  cases step <;> rfl

@[simp]
theorem report_noteIf (condition : Bool) (next : Unit → Session Unit) :
    (noteIf condition text >>= next).report = (next ()).report.notingIf condition text := by
  cases condition <;> rfl

@[simp]
theorem report_openCatalog (files : Files) (verbose : Bool) (path : String) (next : Catalog → Session Unit) :
    (openCatalog files verbose path >>= next).report =
      .after (loadCatalog files path) fun catalog => (next catalog).report.notingIf verbose (loadedNote catalog path) := by
  unfold openCatalog
  cases loadCatalog files path with
  | error failure => rfl
  | ok catalog => cases verbose <;> rfl

@[simp]
theorem report_print : (print text).report = ⟨[], .ok text⟩ := by
  simp [report, print, notes, printed, Except.map, String.join]

@[simp]
theorem report_print_bind (next : Unit → Session Unit) :
    (print text >>= next).report = ⟨(next ()).report.notes, (next ()).report.result.map (text ++ ·)⟩ := by
  rw [bind_ok (print text) next () rfl]
  cases ended : (next ()).result <;>
    simp [report, notes, printed, print, ended, Except.map, String.join_cons,
      List.filterMap_cons]

end Reports

theorem AllOrNothing.of_report (session : Session Unit) (notes : List String) (text : String)
    (reported : session.report = ⟨notes, .ok text⟩) : session.AllOrNothing := by
  intro failure failed
  have ended := congrArg Report.result reported
  simp only [report, failed] at ended
  cases ended

-- Induction on the features. Where a phrase fails the report forgets the lines in front of it, but a session keeps them:
-- that there are none has to be shown of the session.
theorem report_levels (entries : List (String × List Level)) :
    (entries.forM printLevels).report = ⟨[], (entries.mapM levelsLine).map String.join⟩ := by
  induction entries with
  | nil => rfl
  | cons head rest ih =>
      change (printLevels head >>= fun _ => rest.forM printLevels).report = _
      rw [List.mapM_cons]
      cases phrased : Level.phrase head.2 with
      | error cause =>
          simp only [printLevels, levelsLine, phrased]
          rfl
      | ok phrase =>
          have printed : printLevels head = print (line ("  " ++ head.1 ++ ": " ++ phrase)) := by
            rw [printLevels, phrased]
            rfl
          rw [printed, report_print_bind, ih, levelsLine, phrased]
          cases rest.mapM levelsLine with
          | error failure => rfl
          | ok lines =>
              change (⟨[], .ok _⟩ : Report) = ⟨[], .ok (String.join (_ :: lines))⟩
              rw [String.join_cons]

@[simp]
theorem report_printSummary (settings : Settings) (className : String) (table : Table) :
    (printSummary settings className table).report = ⟨[], summary settings className table⟩ := by
  rw [printSummary, report_print_bind, report_levels, summary]
  cases table.featureLevels.mapM levelsLine <;> rfl

theorem report_composing (files : Files) (invocation : Invocation) (options : TableOptions) :
    (composing files invocation options).report = runTable files invocation options := by
  cases shown : options.summary <;> simp [composing, runTable, shown]

theorem report_openTables (files : Files) (verbose : Bool) (paths : List String) :
    ((openTables files verbose paths).notes, (openTables files verbose paths).result) = loadTables files verbose paths := by
  induction paths with
  | nil => rfl
  | cons path rest ih =>
      rw [openTables, loadTables]
      cases loadTable files path with
      | error failure => rfl
      | ok table =>
          simp only [← ih]
          cases ended : (openTables files verbose rest).result <;> cases verbose <;>
            simp [attempt, noteIf, Bind.bind, Session.bind, ended, notes, Except.map, Pure.pure, Session.pure]

theorem report_merging (files : Files) (invocation : Invocation) (paths : List String) :
    (merging files invocation paths).report = runMerge files invocation paths := by
  have opened := report_openTables files invocation.verbose paths
  rw [merging, runMerge, ← opened]
  cases ended : (openTables files invocation.verbose paths).result with
  | error failure =>
      rw [bind_error _ _ failure ended]
      rfl
  | ok tables =>
      rw [report_bind_ok _ _ (silent_openTables _ _ _) tables ended, report_attempt]
      simp only [Except.bind]
      cases Table.merge tables with
      | error cause => simp [Report.after, Report.failed, Except.mapError, Except.map]
      | ok table => simp [Report.after, Except.mapError, Except.map]

theorem report_printDescriptions (several : Bool) (descriptions : List (String × String)) :
    (printDescriptions several descriptions).report = ⟨[], .ok ("\n".intercalate (descriptions.map fun entry =>
      if several then line ("→ " ++ entry.1) ++ line entry.2 else line entry.2))⟩ := by
  induction descriptions with
  | nil => rfl
  | cons head rest ih =>
      rw [printDescriptions]
      cases rest with
      | nil =>
          cases several <;>
            simp [ih, Except.map, String.intercalate_singleton]
      | cons next more =>
          cases several <;>
            simp [ih, Except.map, String.intercalate_cons_cons, String.append_assoc]

theorem report_descriptions (subject : Subject) (descriptions : List (String × String)) :
    (if descriptions = [] then print (line ("⚠ No features are bound to class '" ++ subject.className ++ "'"))
      else printDescriptions (decide (1 < descriptions.length)) descriptions).report =
      ⟨[], .ok (descriptionsText subject descriptions)⟩ := by
  match descriptions with
  | [] => exact report_print _
  | [only] =>
      rw [if_neg (List.cons_ne_nil _ _), report_printDescriptions]
      simp [descriptionsText, String.intercalate_singleton]
  | first :: second :: more =>
      rw [if_neg (List.cons_ne_nil _ _), report_printDescriptions]
      simp [descriptionsText]

theorem report_describing (files : Files) (invocation : Invocation) (options : DescribeOptions) :
    (describing files invocation options).report = runDescribe files invocation options := by
  simp only [describing, runDescribe, report_attempt, report_openCatalog]
  congr
  funext settings
  congr
  funext catalog
  congr
  cases describe catalog ⟨options.className, settings.displayName options.className⟩ options.slug with
  | error failure => rfl
  | ok descriptions =>
      simp only [Report.after, Except.map]
      cases options.json with
      | true => simp only [if_true, report_print]
      | false =>
          simp only [Bool.false_eq_true, if_false]
          exact report_descriptions ⟨options.className, settings.displayName options.className⟩ descriptions

theorem report_phrasing (levels : List Level) : (phrasing levels).report = runLevels levels := by
  rw [phrasing, report_attempt, runLevels]
  cases Level.phrase levels with
  | error cause => rfl
  | ok phrase => exact report_print _

-- Composing, merging, describing and phrasing go on until everything that can fail is done, and print then.
theorem allOrNothing_composing (files : Files) (invocation : Invocation) (options : TableOptions) :
    (composing files invocation options).AllOrNothing := by
  refine .bind _ _ (silent_attempt _) fun settings _ => .bind _ _ (silent_openCatalog _ _ _) fun catalog _ =>
    .bind _ _ (silent_noteIf _ _) fun _ _ => ?_
  cases options.summary with
  | false => exact .of_report _ [] _ (report_print _)
  | true =>
      obtain ⟨text, known⟩ := summary_eq_ok settings options.className
        (Table.composeClass catalog options.className
          ⟨options.maxLevel.getD (settings.maxLevelOf options.className), options.offset⟩)
      refine .of_report _ [] text ?_
      rw [← known]
      exact report_printSummary _ _ _

theorem allOrNothing_merging (files : Files) (invocation : Invocation) (paths : List String) :
    (merging files invocation paths).AllOrNothing :=
  .bind _ _ (silent_openTables _ _ _) fun _ _ => .bind _ _ (silent_attempt _) fun _ _ =>
    .of_report _ [] _ (report_print _)

theorem allOrNothing_describing (files : Files) (invocation : Invocation) (options : DescribeOptions) :
    (describing files invocation options).AllOrNothing := by
  refine .bind _ _ (silent_attempt _) fun settings _ => .bind _ _ (silent_openCatalog _ _ _) fun catalog _ =>
    .bind _ _ (silent_attempt _) fun descriptions _ => ?_
  cases options.json with
  | true => exact .of_report _ [] _ (report_print _)
  | false => exact .of_report _ [] _ (report_descriptions _ descriptions)

theorem allOrNothing_phrasing (levels : List Level) : (phrasing levels).AllOrNothing :=
  .bind _ _ (silent_attempt _) fun _ _ => .of_report _ [] _ (report_print _)

end Session

theorem Invocation.report_session (files : Files) (invocation : Invocation) :
    (invocation.session files).report = invocation.report files := by
  unfold Invocation.session Invocation.report
  cases invocation.action with
  | table options => exact Session.report_composing files invocation options
  | merge paths => exact Session.report_merging files invocation paths
  | describe options => exact Session.report_describing files invocation options
  | levels levels => exact Session.report_phrasing levels

theorem Invocation.allOrNothing_session (files : Files) (invocation : Invocation) :
    (invocation.session files).AllOrNothing := by
  unfold Invocation.session
  cases invocation.action with
  | table options => exact Session.allOrNothing_composing files invocation options
  | merge paths => exact Session.allOrNothing_merging files invocation paths
  | describe options => exact Session.allOrNothing_describing files invocation options
  | levels levels => exact Session.allOrNothing_phrasing levels

section Screens

variable {σ : Type} (write : Piece → StateM σ Answer) (state : σ)

theorem handOver_cons (piece : Piece) (rest : List Piece) : (handOver write (piece :: rest)).run state =
    match (write piece).run state with
    | (.taken, next) => (handOver write rest).run next
    | (.refused _ reason, next) => (some (piece, reason), next) := by
  change StateT.run (write piece >>= _) state = _
  rw [StateT.run_bind]
  change (match (write piece).run state with | (answer, next) => _) = _
  rcases (write piece).run state with ⟨_ | ⟨through, reason⟩, next⟩ <;> rfl

theorem report_run (failure : Failure) : (failure.report write).run state =
    match (write (.noted failure.line)).run state with
    | (.taken, next) => (1, next)
    | (.refused _ _, next) => (panicStatus, next) := by
  change StateT.run (write _ >>= _) state = _
  rw [StateT.run_bind]
  change (match (write (.noted failure.line)).run state with | (answer, next) => _) = _
  rcases (write (.noted failure.line)).run state with ⟨_ | ⟨through, reason⟩, next⟩ <;> rfl

theorem ignored_run (piece : Piece) (status : UInt32) :
    (do let _ ← write piece; return status : StateM σ UInt32).run state = (status, ((write piece).run state).2) := rfl

theorem perform_run (session : Session Unit) : (session.perform write).run state =
    match (handOver write session.pieces).run state with
    | (some (.printed _, reason), next) => ((Failure.unwritten reason).report write).run next
    | (some (.noted _, _), next) => (panicStatus, next)
    | (none, next) =>
        match session.result with
        | .ok _ => (0, next)
        | .error failure => (failure.report write).run next := by
  rw [Session.perform, StateT.run_bind]
  change (match (handOver write session.pieces).run state with | (refused, next) => _) = _
  rcases (handOver write session.pieces).run state with ⟨_ | ⟨⟨text⟩ | ⟨text⟩, reason⟩, next⟩
  · cases session.result <;> rfl
  · rfl
  · rfl

@[simp]
theorem write_printed (text : String) (screen : Screen) : (Screen.write (.printed text)).run screen =
    (.taken, {screen with output := screen.output ++ text}) := rfl

@[simp]
theorem write_noted (text : String) (screen : Screen) : (Screen.write (.noted text)).run screen =
    (.taken, {screen with errors := screen.errors ++ text}) := rfl

theorem handOver_screen (pieces : List Piece) (screen : Screen) : (handOver Screen.write pieces).run screen =
    (none, ⟨screen.output ++ String.join (pieces.filterMap Piece.printed?),
      screen.errors ++ String.join (pieces.filterMap Piece.noted?)⟩) := by
  induction pieces generalizing screen with
  | nil => simp [handOver, String.join]; rfl
  | cons piece rest ih =>
      rw [handOver_cons]
      cases piece <;> simp [ih, List.filterMap_cons, String.append_assoc]

theorem run_invoke (files : Files) (environment : Option String) (arguments : List String) (invocation : Invocation)
    (requested : request? environment arguments = some (.invoke invocation)) :
    run files environment arguments = (invocation.report files).outcome := by
  have settled := invocation.allOrNothing_session files
  rw [run, runWith, requested, ← invocation.report_session]
  dsimp only
  rw [perform_run, handOver_screen]
  cases ended : (invocation.session files).result with
  | ok _ => simp [Session.report, Session.printed, Session.notes, Report.outcome, ended, Except.map]
  | error failure =>
      have silent : (invocation.session files).pieces.filterMap Piece.printed? = [] := settled failure ended
      simp [report_run, Session.report, Session.notes, Report.outcome, ended, Except.map, silent]

end Screens

end Command

end ClassProgression
