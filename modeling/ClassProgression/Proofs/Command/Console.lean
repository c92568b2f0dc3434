import ClassProgression.Proofs.Command.Report
import ClassProgression.Proofs.Text.ByteOrder

namespace ClassProgression

namespace Text

@[simp]
theorem bytes_empty : bytes "" = [] := rfl

@[simp]
theorem bytes_append (left right : String) : bytes (left ++ right) = bytes left ++ bytes right := by
  simp [bytes_eq]

end Text

namespace Command

open Text

-- What the system makes of a piece may depend on all that has been handed over before it.
abbrev Console := List Piece → Piece → Answer

-- What has been handed over, and what of it has gone through.
structure Streams where
  handed : List Piece := []
  output : List UInt8 := []
  errors : List UInt8 := []

def Answer.part (answer : Answer) (text : String) : List UInt8 :=
  match answer with
  | .taken => bytes text
  | .refused through _ => (bytes text).take through

namespace Streams

def receive (streams : Streams) (piece : Piece) (answer : Answer) : Streams :=
  match piece with
  | .printed text =>
      {streams with handed := streams.handed ++ [piece], output := streams.output ++ answer.part text}
  | .noted text =>
      {streams with handed := streams.handed ++ [piece], errors := streams.errors ++ answer.part text}

def taking (streams : Streams) (pieces : List Piece) : Streams where
  handed := streams.handed ++ pieces
  output := streams.output ++ bytes (String.join (pieces.filterMap Piece.printed?))
  errors := streams.errors ++ bytes (String.join (pieces.filterMap Piece.noted?))

variable (streams : Streams)

@[simp]
theorem handed_receive (piece : Piece) (answer : Answer) :
    (streams.receive piece answer).handed = streams.handed ++ [piece] := by
  cases piece <;> rfl

@[simp]
theorem output_noted (text : String) (answer : Answer) : (streams.receive (.noted text) answer).output = streams.output := rfl

@[simp]
theorem taking_nil : streams.taking [] = streams := by
  simp [taking, String.join]

theorem taking_cons (piece : Piece) (rest : List Piece) :
    (streams.receive piece .taken).taking rest = streams.taking (piece :: rest) := by
  cases piece <;> simp [taking, receive, Answer.part, List.filterMap_cons]

end Streams

namespace Console

variable (console : Console)

def write (piece : Piece) : StateM Streams Answer := fun streams =>
  (console streams.handed piece, streams.receive piece (console streams.handed piece))

def Open : Prop := ∀ handed piece, console handed piece = .taken

end Console

def runOn (console : Console) (files : Files) (environment : Option String) (arguments : List String) : UInt32 × Streams :=
  (runWith console.write files environment arguments).run {}

-- Handing over ends with the last piece, or with the first that is refused.
inductive Handed (console : Console) (streams : Streams) (pieces : List Piece) : Option (Piece × Refusal) × Streams → Prop where
  | whole : Handed console streams pieces (none, streams.taking pieces)
  | broken (before : List Piece) (piece : Piece) (after : List Piece) (through : Nat) (reason : Refusal)
      (split : pieces = before ++ piece :: after)
      (refused : console (streams.handed ++ before) piece = .refused through reason) :
      Handed console streams pieces
        (some (piece, reason), (streams.taking before).receive piece (.refused through reason))

-- The output has refused a text: everything in front of it has been printed, and of the text itself what went through.
inductive BrokenOff (console : Console) (pieces : List Piece) (output : List UInt8) : Prop where
  | at (before : List Piece) (text : String) (after : List Piece) (through : Nat) (reason : Refusal)
      (split : pieces = before ++ .printed text :: after) (refused : console before (.printed text) = .refused through reason)
      (left : output = bytes (String.join (before.filterMap Piece.printed?)) ++ (bytes text).take through)

section Performing

variable (console : Console)

@[simp]
theorem Console.write_run (piece : Piece) (streams : Streams) : (console.write piece).run streams =
    (console streams.handed piece, streams.receive piece (console streams.handed piece)) := rfl

@[simp]
theorem report_output (failure : Failure) (streams : Streams) :
    ((failure.report console.write).run streams).2.output = streams.output := by
  rw [report_run, console.write_run]
  cases console streams.handed (.noted failure.line) <;> rfl

theorem handed (pieces : List Piece) (streams : Streams) :
    Handed console streams pieces ((handOver console.write pieces).run streams) := by
  induction pieces generalizing streams with
  | nil =>
      have none : Handed console streams [] (none, streams.taking []) := .whole
      rwa [streams.taking_nil] at none
  | cons piece rest ih =>
      rw [handOver_cons, console.write_run]
      cases answered : console streams.handed piece with
      | refused through reason =>
          have first := Handed.broken [] piece rest through reason rfl (by simpa using answered)
          rwa [streams.taking_nil] at first
      | taken =>
          have later := ih (streams.receive piece .taken)
          dsimp only
          generalize (handOver console.write rest).run (streams.receive piece .taken) = ended at later ⊢
          obtain _ | ⟨before, other, after, through, reason, rfl, refused⟩ := later
          · rw [streams.taking_cons]
            exact .whole
          · rw [streams.taking_cons]
            refine .broken (piece :: before) other after through reason rfl ?_
            simpa using refused

-- A session that prints all or nothing leaves something of its output behind a failure only if the output has refused it.
theorem left_behind (session : Session Unit) (settled : session.AllOrNothing)
    (failed : ((session.perform console.write).run {}).1 = 1) :
    ((session.perform console.write).run {}).2.output = [] ∨
      BrokenOff console session.pieces ((session.perform console.write).run {}).2.output := by
  have given := handed console session.pieces {}
  rw [perform_run] at failed ⊢
  generalize (handOver console.write session.pieces).run {} = ended at given failed ⊢
  obtain _ | ⟨before, ⟨text⟩ | ⟨text⟩, after, through, reason, split, refused⟩ := given
  · cases ended : session.result with
    | ok _ => simp [ended] at failed
    | error failure =>
        have silent : session.pieces.filterMap Piece.printed? = [] := settled failure ended
        exact .inl (by simp [Streams.taking, silent, String.join])
  · refine .inr ⟨before, text, after, through, reason, split, refused, ?_⟩
    exact report_output _ _ _
  · cases failed

end Performing

section Open

variable (console : Console) (opened : console.Open)
include opened

theorem handOver_open (pieces : List Piece) (streams : Streams) :
    (handOver console.write pieces).run streams = (none, streams.taking pieces) := by
  have given := handed console pieces streams
  generalize (handOver console.write pieces).run streams = ended at given ⊢
  obtain _ | ⟨before, piece, _, through, reason, _, refused⟩ := given
  · rfl
  · cases (opened _ piece).symm.trans refused

theorem runOn_open (files : Files) (environment : Option String) (arguments : List String) :
    let ended := runOn console files environment arguments
    let outcome := run files environment arguments
    ended.1 = outcome.status ∧ ended.2.output = bytes outcome.stdout ∧ ended.2.errors = bytes outcome.stderr := by
  intro ended outcome
  simp only [ended, outcome, runOn, run, runWith]
  cases request? environment arguments with
  | none =>
      rw [ignored_run, ignored_run]
      simp [opened _ _, Streams.receive, Answer.part]
  | some request =>
      cases request with
      | version =>
          dsimp only
          rw [ignored_run, ignored_run]
          simp [opened _ _, Streams.receive, Answer.part]
      | invoke invocation =>
          dsimp only
          rw [perform_run, perform_run, handOver_open console opened, handOver_screen]
          cases (invocation.session files).result with
          | ok _ => simp [Streams.taking]
          | error failure => simp [report_run, opened _ _, Streams.taking, Streams.receive, Answer.part]

end Open

end Command

end ClassProgression
