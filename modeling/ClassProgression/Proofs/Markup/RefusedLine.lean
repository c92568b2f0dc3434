import ClassProgression.Proofs.Markup.Levels
import ClassProgression.Proofs.Markup.Pattern

namespace ClassProgression.Markup

open Text

def Resolution.newlines : Resolution → Nat
  | .replace value => value.count newline
  | .deleteLine => 0

def newlinesPut (log : List Visit) : Nat := (log.map fun visit => visit.resolution.newlines).sum

def linesRemoved (log : List Visit) : Nat := log.countP fun visit => decide (visit.resolution = .deleteLine)

section Edits

theorem count_afterFirstLine (text : List Char) (present : newline ∈ text) :
    (afterFirstLine text).count newline + 1 = text.count newline := by
  obtain ⟨kept, cut, split⟩ := FirstLineCut.exists text
  rw [split.afterFirstLine_eq.1]
  cases split with
  | cut line kept plain =>
      rw [List.count_append, List.count_cons_self, List.count_eq_zero_of_not_mem plain, Nat.zero_add]
  | whole _ plain => exact absurd present plain

-- At its last newline a text loses that one only, and the join makes up for it.
theorem count_beforeLastLine (text : List Char) :
    (beforeLastLine text).count newline + (if newline ∈ text then 1 else 0) = text.count newline := by
  obtain ⟨kept, cut, split⟩ := LastLineCut.exists text
  rw [split.beforeLastLine_eq.1]
  cases split with
  | cut kept line plain =>
      rw [if_pos (by simp), List.count_append, List.count_cons_self, List.count_eq_zero_of_not_mem plain, Nat.zero_add]
  | whole _ plain => rw [if_neg plain, List.count_eq_zero_of_not_mem plain, List.count_nil]

theorem count_deleteLine (text : List Char) (start stop : Nat) (further : newline ∈ text.drop stop) :
    (deleteLine text start stop).1.count newline + 1 = (text.take start).count newline + (text.drop stop).count newline := by
  have above := count_beforeLastLine (text.take start)
  have below := count_afterFirstLine (text.drop stop) further
  simp only [deleteLine, List.count_append]
  by_cases present : newline ∈ text.take start
  · rw [if_pos present] at above
    rw [if_pos ⟨present, further⟩, List.count_singleton_self]
    omega
  · rw [if_neg present] at above
    rw [if_neg (fun both => present both.1), List.count_nil]
    omega

theorem count_parts (text : List Char) (start : Nat) :
    text.count newline = (text.take start).count newline + (text.drop start).count newline := by
  rw [← List.count_append, List.take_append_drop]

variable (text : List Char) (position : Nat) (tag : Tag) (found : findTag text position = some tag)
include found

theorem findTag_leftmost : Leftmost text position tag := by
  rcases findTag_cases text position with ⟨other, first, same⟩ | ⟨_, absent⟩
  · rw [found] at same
    exact Option.some.inj same ▸ first
  · rw [found] at absent
    cases absent

theorem count_around : (text.take tag.start).count newline + (text.drop tag.stop).count newline = text.count newline := by
  have first := findTag_leftmost text position tag found
  have plain : newline ∉ opener ++ tag.name ++ closer := by
    rw [List.mem_append, List.mem_append, not_or, not_or]
    exact ⟨⟨by decide, first.stands.stands.inLine⟩, by decide⟩
  obtain ⟨after, spelled⟩ := first.stands.stands.spelled
  have behind : text.drop tag.stop = after := by
    rw [first.stop, ← List.drop_drop, ← spelled, List.drop_left]
  rw [count_parts text tag.start, behind, ← spelled, List.count_append, List.count_eq_zero_of_not_mem plain, Nat.zero_add]

theorem count_edit (resolution : Resolution) (left : (edit text tag resolution).1.drop (edit text tag resolution).2 ≠ []) :
    (edit text tag resolution).1.count newline + (if resolution = .deleteLine then 1 else 0) =
      text.count newline + resolution.newlines := by
  have around := count_around text position tag found
  cases resolution with
  | replace value =>
      simp only [edit, List.count_append, Resolution.newlines, reduceCtorEq, if_false]
      omega
  | deleteLine =>
      have further : newline ∈ text.drop tag.stop := by
        apply Classical.byContradiction
        intro last
        refine left ?_
        simp only [edit]
        rw [deleteLine_remainder, (FirstLineCut.whole _ last).afterFirstLine_eq.1]
      have removed := count_deleteLine text tag.start tag.stop further
      simp only [edit, Resolution.newlines, if_true]
      omega

end Edits

@[simp]
theorem newlinesPut_concat (log : List Visit) (visit : Visit) :
    newlinesPut (log ++ [visit]) = newlinesPut log + visit.resolution.newlines := by
  simp [newlinesPut]

@[simp]
theorem linesRemoved_concat (log : List Visit) (visit : Visit) :
    linesRemoved (log ++ [visit]) = linesRemoved log + if visit.resolution = .deleteLine then 1 else 0 := by
  simp [linesRemoved, List.countP_singleton]

-- The newlines of the edited text, over a whole run. Once nothing is left to read a removed line may have taken none.
theorem Logged.count_newlines (scope : Scope) (template : List Char) (log : List Visit) (text : List Char) (position : Nat)
    (pending : List Level) (logged : Logged scope template log text position pending) (left : text.drop position ≠ []) :
    text.count newline + linesRemoved log = template.count newline + newlinesPut log := by
  induction logged with
  | start => rfl
  | step log text position pending later tag resolution logged found resolved ih =>
      have before : text.drop position ≠ [] := fun empty => by
        rw [findTag, empty] at found
        cases found
      have earlier := ih before
      have edited := count_edit text position tag found resolution left
      rw [newlinesPut_concat, linesRemoved_concat]
      simp only at edited ⊢
      omega

theorem Stands.place_lt (text name : List Char) (place : Nat) (stands : Stands (text.drop place) name) :
    place < text.length := by
  have long := stands.spelled.length_le
  simp only [opener, List.length_append, List.length_cons, List.length_drop] at long
  omega

theorem place_in_template (template text : List Char) (position : Nat) (suffix : text.drop position <:+ template)
    (start : Nat) (behind : position ≤ start) :
    ∃ place, template.drop place = text.drop start ∧ (template.take place).count newline + (text.drop start).count newline =
      template.count newline := by
  obtain ⟨more, split⟩ := Nat.exists_eq_add_of_le behind
  have further : text.drop start <:+ template := by
    rw [split, ← List.drop_drop]
    exact (List.drop_suffix _ _).trans suffix
  obtain ⟨above, whole⟩ := further
  refine ⟨above.length, ?_, ?_⟩
  · rw [← whole, List.drop_left]
  · rw [← whole, List.take_left, List.count_append]

theorem Logged.stops (scope : Scope) (template : List Char) (log : List Visit) (text : List Char) (position : Nat)
    (pending : List Level) (logged : Logged scope template log text position pending) (fault : TagFault)
    (refused : fillFrom scope text position pending = .error fault) :
    ∃ log text position pending tag, Logged scope template log text position pending ∧ findTag text position = some tag ∧
      resolve scope pending (String.ofList tag.name) (lineNumber text tag.start) = .error fault := by
  generalize size : text.length - position = bound
  induction bound using Nat.strongRecOn generalizing log text position pending with
  | ind bound ih =>
      subst size
      cases found : findTag text position with
      | none =>
          rw [fillFrom_none scope text position pending found] at refused
          cases refused
      | some tag =>
          rw [fillFrom_some scope text position pending tag found] at refused
          cases resolved : resolve scope pending (String.ofList tag.name) (lineNumber text tag.start) with
          | error other =>
              rw [resolved] at refused
              cases refused
              exact ⟨log, text, position, pending, tag, logged, found, resolved⟩
          | ok step =>
              obtain ⟨resolution, later⟩ := step
              rw [resolved] at refused
              have further := Logged.step log text position pending later tag resolution logged found resolved
              exact ih _ (edit_shortens text position tag resolution found) _ _ _ _ further refused rfl

theorem phrase_refused (levels : List Level) (f : String → β) (name : String) (line : Nat) :
    (Level.phrase levels).map f ≠ .error (.unrecognized name line) := by
  intro refused
  by_cases empty : levels = []
  · subst empty
    cases refused
  · obtain ⟨text, phrased⟩ := phrase_of_ne_nil levels empty
    rw [phrased] at refused
    cases refused

theorem resolve_unrecognized (scope : Scope) (pending : List Level) (own name : String) (here line : Nat)
    (refused : resolve scope pending own here = .error (.unrecognized name line)) : own = name ∧ here = line := by
  unfold resolve at refused
  cases asked : Request.ofName own with
  | className =>
      rw [asked] at refused
      cases refused
  | nextLevel =>
      rw [asked] at refused
      cases pending with
      | nil => cases refused
      | cons level rest => exact absurd refused (phrase_refused [level] _ name line)
  | remainingLevels =>
      rw [asked] at refused
      cases pending with
      | nil => cases refused
      | cons level rest => exact absurd refused (phrase_refused (level :: rest) _ name line)
  | allLevels =>
      rw [asked] at refused
      exact absurd refused (phrase_refused scope.levels _ name line)
  | term other =>
      have same : own = other := by
        unfold Request.ofName at asked
        grind
      rw [asked] at refused
      cases held : scope.terms.get? other with
      | some value =>
          simp only [held] at refused
          cases refused
      | none =>
          simp only [held] at refused
          cases refused
          exact ⟨same, rfl⟩

-- The line of every refusal, and exactly when it is the line on which the tag stands in the template.
theorem refusal_line (scope : Scope) (template name : String) (line : Nat)
    (refused : substitute scope template = .error (.unrecognized name line)) :
    ∃ log text position pending tag place, Logged scope template.toList log text position pending ∧
      findTag text position = some tag ∧ String.ofList tag.name = name ∧
      resolve scope pending name (lineNumber text tag.start) = .error (.unrecognized name line) ∧
      template.toList.drop place = text.drop tag.start ∧ StandsFirst (template.toList.drop place) name.toList ∧
      line + linesRemoved log = lineNumber template.toList place + newlinesPut log ∧
      (line = lineNumber template.toList place ↔ linesRemoved log = newlinesPut log) := by
  have filled : fillFrom scope template.toList 0 scope.levels = .error (.unrecognized name line) := by
    rw [substitute, fill_eq] at refused
    cases outcome : fillFrom scope template.toList 0 scope.levels with
    | ok text => rw [outcome] at refused; cases refused
    | error fault => rw [outcome] at refused; cases refused; rfl
  obtain ⟨log, text, position, pending, tag, logged, found, unknown⟩ :=
    Logged.stops scope template.toList [] template.toList 0 scope.levels .start _ filled
  obtain ⟨same, here⟩ := resolve_unrecognized scope pending _ name _ line unknown
  have first := findTag_leftmost text position tag found
  obtain ⟨place, behind, counted⟩ :=
    place_in_template template.toList text position logged.visits.remainder.2 tag.start first.behind
  have left : text.drop position ≠ [] := fun empty => by
    rw [findTag, empty] at found
    cases found
  have newlines := logged.count_newlines scope template.toList log text position pending left
  have split := count_parts text tag.start
  have stands : StandsFirst (template.toList.drop place) name.toList := by
    rw [behind, ← same, String.toList_ofList]
    exact first.stands
  have balance : line + linesRemoved log = lineNumber template.toList place + newlinesPut log := by
    rw [← here, lineNumber, lineNumber]
    omega
  refine ⟨log, text, position, pending, tag, place, logged, found, same, ?_, behind, stands, balance, ?_⟩
  · rw [← same]
    exact same.symm ▸ unknown
  · omega

-- A value brings a newline in, and a removed line takes one out.
theorem refusal_after_two_edits :
    let scope : Scope := {className := "Bard", terms := NameMap.ofList [("verse", "la\nla")]}
    let template := "`\x7b( verse )\x7d`\n`\x7b( level )\x7d`\n`\x7b( bogus )\x7d`"
    substitute scope template = .error (.unrecognized "bogus" 3) ∧
    ∃ log text position pending place, Logged scope template.toList log text position pending ∧
      StandsFirst (template.toList.drop place) "bogus".toList ∧ lineNumber template.toList place = 3 ∧
      linesRemoved log = newlinesPut log := by
  intro scope template
  have refused : substitute scope template = .error (.unrecognized "bogus" 3) := by cbv
  obtain ⟨log, text, position, pending, _, place, logged, _, _, _, _, stands, _, exact⟩ :=
    refusal_line scope template "bogus" 3 refused
  have only : ∀ place < template.toList.length,
      (opener ++ "bogus".toList ++ closer).isPrefixOf (template.toList.drop place) = true →
        lineNumber template.toList place = 3 := by decide +kernel
  have third := only place stands.stands.place_lt (List.isPrefixOf_iff_prefix.mpr stands.stands.spelled)
  exact ⟨refused, log, text, position, pending, place, logged, stands, third, exact.mp third.symm⟩

-- A removed line is not counted: no tag of the name stands on the line that is reported.
theorem removed_line_not_counted : ¬ ∀ (scope : Scope) (template name : String) (line : Nat),
    substitute scope template = .error (.unrecognized name line) →
      ∃ place, Stands (template.toList.drop place) name.toList ∧ lineNumber template.toList place = line := by
  intro claimed
  have refused : substitute {className := "Bard"} "`\x7b( level )\x7d`\n`\x7b( bogus )\x7d`" =
      .error (.unrecognized "bogus" 1) := by cbv
  obtain ⟨place, stands, line⟩ := claimed _ _ _ _ refused
  have second : ∀ place < "`\x7b( level )\x7d`\n`\x7b( bogus )\x7d`".toList.length,
      (opener ++ "bogus".toList ++ closer).isPrefixOf ("`\x7b( level )\x7d`\n`\x7b( bogus )\x7d`".toList.drop place) = true →
        lineNumber "`\x7b( level )\x7d`\n`\x7b( bogus )\x7d`".toList place = 2 := by decide +kernel
  have other := second place stands.place_lt (List.isPrefixOf_iff_prefix.mpr stands.spelled)
  rw [line] at other
  cases other


end ClassProgression.Markup
