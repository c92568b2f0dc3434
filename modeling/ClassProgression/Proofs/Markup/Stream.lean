import ClassProgression.Proofs.Markup.Pending
import Mathlib

namespace ClassProgression

-- What went wrong, wherever it did.
inductive TagFault.Kind where
  | unrecognized (name : String)
  | noLevels
deriving DecidableEq

def TagFault.kind : TagFault → TagFault.Kind
  | .unrecognized name _ => .unrecognized name
  | .noLevels => .noLevels

namespace Markup

open Text

inductive LastLineCut : List Char → List Char → Bool → Prop where
  | cut (kept line : List Char) (plain : newline ∉ line) : LastLineCut (kept ++ newline :: line) kept true
  | whole (text : List Char) (plain : newline ∉ text) : LastLineCut text [] false

inductive FirstLineCut : List Char → List Char → Bool → Prop where
  | cut (line kept : List Char) (plain : newline ∉ line) : FirstLineCut (line ++ newline :: kept) kept true
  | whole (text : List Char) (plain : newline ∉ text) : FirstLineCut text [] false

-- The first tag of a text, between what stands before and behind it.
structure FirstTag (rest before name after : List Char) : Prop where
  splits : rest = before ++ (opener ++ name ++ closer) ++ after
  first : findTag rest 0 = some ⟨name, before.length, before.length + tagLength name⟩

-- The reader: `out` is written, `rest` is left, `pending` are the levels no tag has taken yet. The
-- line that a tag is said to stand on plays no part.
inductive Streams (scope : Scope) : List Char → List Char → List Level → Except TagFault.Kind String → Prop where
  | done (out rest : List Char) (pending : List Level) (noTag : findTag rest 0 = none) :
      Streams scope out rest pending (.ok (String.ofList (out ++ rest)))
  | replaced (out rest before name after value : List Char) (pending later : List Level) (line : Nat)
      (outcome : Except TagFault.Kind String) (tag : FirstTag rest before name after)
      (resolved : resolve scope pending (String.ofList name) line = .ok (.replace value, later))
      (continued : Streams scope (out ++ before ++ value) after later outcome) :
      Streams scope out rest pending outcome
  | removed (out rest before name after upper lower : List Char) (above below : Bool) (pending later : List Level)
      (line : Nat) (outcome : Except TagFault.Kind String) (tag : FirstTag rest before name after)
      (resolved : resolve scope pending (String.ofList name) line = .ok (.deleteLine, later))
      (upperCut : LastLineCut (out ++ before) upper above) (lowerCut : FirstLineCut after lower below)
      (continued : Streams scope (upper ++ if above && below then [newline] else []) lower later outcome) :
      Streams scope out rest pending outcome
  | failed (out rest before name after : List Char) (pending : List Level) (line : Nat) (fault : TagFault)
      (tag : FirstTag rest before name after)
      (resolved : resolve scope pending (String.ofList name) line = .error fault) :
      Streams scope out rest pending (.error fault.kind)

theorem dropWhile_line (line rest : List Char) (plain : newline ∉ line) :
    (line ++ rest).dropWhile (· ≠ newline) = rest.dropWhile (· ≠ newline) := by
  apply List.dropWhile_append_of_pos
  intro c member
  simpa using fun same : c = newline => plain (same ▸ member)

theorem takeWhile_plain (line : List Char) (plain : newline ∉ line) : line.takeWhile (· ≠ newline) = line := by
  refine List.takeWhile_eq_self_iff.mpr fun c member => ?_
  simpa using fun same : c = newline => plain (same ▸ member)

@[simp]
theorem takeWhile_newline (line rest : List Char) :
    (line ++ newline :: rest).takeWhile (· ≠ newline) = line.takeWhile (· ≠ newline) := by
  rw [List.takeWhile_append]
  split
  · rename_i whole
    rw [List.takeWhile_cons_of_neg (by simp), List.append_nil]
    exact ((List.takeWhile_prefix _).eq_of_length whole).symm
  · rfl

theorem FirstLineCut.afterFirstLine_eq (text kept : List Char) (cut : Bool) (split : FirstLineCut text kept cut) :
    afterFirstLine text = kept ∧ (newline ∈ text ↔ cut = true) := by
  cases split with
  | cut line _ plain =>
      rw [afterFirstLine, dropWhile_line line _ plain, List.dropWhile_cons_of_neg (by simp)]
      simp
  | whole _ plain =>
      have skipped := dropWhile_line text [] plain
      rw [List.append_nil] at skipped
      rw [afterFirstLine, skipped]
      simp [plain]

theorem LastLineCut.beforeLastLine_eq (text kept : List Char) (cut : Bool) (split : LastLineCut text kept cut) :
    beforeLastLine text = kept ∧ (newline ∈ text ↔ cut = true) := by
  cases split with
  | cut _ line plain =>
      rw [beforeLastLine, List.reverse_append, List.reverse_cons, List.append_assoc,
        dropWhile_line _ _ (mt List.mem_reverse.mp plain), List.singleton_append,
        List.dropWhile_cons_of_neg (by simp)]
      simp
  | whole _ plain =>
      have skipped := dropWhile_line text.reverse [] (mt List.mem_reverse.mp plain)
      rw [List.append_nil] at skipped
      rw [beforeLastLine, skipped]
      simp [plain]

theorem FirstLineCut.exists (text : List Char) : ∃ kept cut, FirstLineCut text kept cut := by
  by_cases present : newline ∈ text
  · obtain ⟨line, kept, rfl, plain⟩ := List.eq_append_cons_of_mem present
    exact ⟨_, _, .cut line kept plain⟩
  · exact ⟨_, _, .whole text present⟩

theorem LastLineCut.exists (text : List Char) : ∃ kept cut, LastLineCut text kept cut := by
  by_cases present : newline ∈ text
  · obtain ⟨line, above, reversed, plain⟩ := List.eq_append_cons_of_mem (List.mem_reverse.mpr present)
    have split : text = above.reverse ++ newline :: line.reverse := by
      rw [← List.reverse_reverse text, reversed]
      simp
    rw [split]
    exact ⟨_, _, .cut above.reverse line.reverse (mt List.mem_reverse.mp plain)⟩
  · exact ⟨_, _, .whole text present⟩

theorem firstTag?_shift (text : List Char) (position shift : Nat) : firstTag? text (position + shift) =
    (firstTag? text position).map fun tag => ⟨tag.name, tag.start + shift, tag.stop + shift⟩ := by
  induction text generalizing position with
  | nil => rfl
  | cons c rest ih =>
      unfold firstTag?
      split
      · simp only [Option.map_some, Nat.add_right_comm]
      · rw [Nat.add_right_comm]
        exact ih (position + 1)

theorem findTag_append (out rest : List Char) : findTag (out ++ rest) out.length =
    (findTag rest 0).map fun tag => ⟨tag.name, tag.start + out.length, tag.stop + out.length⟩ := by
  rw [findTag, findTag, List.drop_left, List.drop_zero, ← firstTag?_shift, Nat.zero_add]

theorem firstTag?_splits (text : List Char) (position : Nat) (tag : Tag) (found : firstTag? text position = some tag) :
    ∃ before after, text = before ++ (opener ++ tag.name ++ closer) ++ after ∧
      tag.start = position + before.length ∧ tag.stop = tag.start + tagLength tag.name := by
  induction text generalizing position with
  | nil => cases found
  | cons c rest ih =>
      unfold firstTag? at found
      split at found
      · rename_i name stands
        cases found
        obtain ⟨after, split⟩ := tagAtHead_stands _ _ stands
        exact ⟨[], after, split.symm, rfl, rfl⟩
      · obtain ⟨before, after, split, start, stop⟩ := ih (position + 1) found
        refine ⟨c :: before, after, congrArg (c :: ·) split, ?_, stop⟩
        simp only [start, List.length_cons]
        omega

theorem FirstTag.of_findTag (rest : List Char) (tag : Tag) (found : findTag rest 0 = some tag) :
    ∃ before after, FirstTag rest before tag.name after := by
  obtain ⟨before, after, split, start, stop⟩ := firstTag?_splits _ _ _ found
  refine ⟨before, after, split, found.trans (congrArg some ?_)⟩
  rw [Nat.zero_add] at start
  rw [← start, ← stop]

-- Only the line in a refusal depends on where the tag stands.
theorem resolve_line (scope : Scope) (pending : List Level) (name : String) (line other : Nat) :
    (resolve scope pending name line).mapError TagFault.kind =
      (resolve scope pending name other).mapError TagFault.kind := by
  unfold resolve
  cases Request.ofName name with
  | term name =>
      simp only
      split <;> rfl
  | className => rfl
  | nextLevel => rfl
  | remainingLevels => rfl
  | allLevels => rfl

theorem resolve_ok (scope : Scope) (pending : List Level) (name : String) (line other : Nat)
    (resolved : Resolution × List Level) (found : resolve scope pending name line = .ok resolved) :
    resolve scope pending name other = .ok resolved := by
  have same := resolve_line scope pending name line other
  rw [found] at same
  cases elsewhere : resolve scope pending name other with
  | error fault => rw [elsewhere] at same; cases same
  | ok value => rw [elsewhere] at same; rw [← Except.ok.inj same]

theorem resolve_error (scope : Scope) (pending : List Level) (name : String) (line other : Nat) (fault : TagFault)
    (found : resolve scope pending name line = .error fault) :
    ∃ here, resolve scope pending name other = .error here ∧ here.kind = fault.kind := by
  have same := resolve_line scope pending name line other
  rw [found] at same
  cases elsewhere : resolve scope pending name other with
  | error here => rw [elsewhere] at same; exact ⟨here, rfl, (Except.error.inj same).symm⟩
  | ok value => rw [elsewhere] at same; cases same

section Steps

variable (scope : Scope) (out rest before name after : List Char) (pending later : List Level)

-- One step of a filling whose text is what is written followed by what is left.

theorem fillFrom_done (noTag : findTag rest 0 = none) :
    fillFrom scope (out ++ rest) out.length pending = .ok (out ++ rest) := by
  apply fillFrom_none
  rw [findTag_append, noTag]
  rfl

variable (tag : FirstTag rest before name after)
include tag

theorem FirstTag.findTag_append : findTag (out ++ rest) out.length =
    some ⟨name, (out ++ before).length, (out ++ before).length + tagLength name⟩ := by
  rw [Markup.findTag_append, tag.first]
  simp only [Option.map_some, List.length_append, Option.some.injEq, Tag.mk.injEq, true_and]
  omega

theorem fillFrom_failed (fault : TagFault) (resolved : resolve scope pending (String.ofList name)
    (lineNumber (out ++ rest) (out ++ before).length) = .error fault) :
    fillFrom scope (out ++ rest) out.length pending = .error fault := by
  rw [fillFrom_some scope _ _ pending _ (tag.findTag_append out rest before name after), resolved]

theorem fillFrom_step (resolution : Resolution) (line : Nat)
    (resolved : resolve scope pending (String.ofList name) line = .ok (resolution, later)) :
    let edited := edit (out ++ rest)
      ⟨name, (out ++ before).length, (out ++ before).length + tagLength name⟩ resolution
    fillFrom scope (out ++ rest) out.length pending = fillFrom scope edited.1 edited.2 later := by
  rw [fillFrom_some scope _ _ pending _ (tag.findTag_append out rest before name after),
    resolve_ok scope pending (String.ofList name) line _ _ resolved]

theorem FirstTag.joined : out ++ rest = (out ++ before) ++ (opener ++ name ++ closer) ++ after := by
  rw [tag.splits]
  simp only [List.append_assoc]

theorem FirstTag.take_start : (out ++ rest).take (out ++ before).length = out ++ before := by
  rw [tag.joined out, List.append_assoc (out ++ before), List.take_left]

theorem FirstTag.drop_stop : (out ++ rest).drop ((out ++ before).length + tagLength name) = after := by
  have length : (out ++ before).length + tagLength name = ((out ++ before) ++ (opener ++ name ++ closer)).length := by
    simp only [tagLength, List.length_append]
  rw [tag.joined out, length, List.drop_left]

theorem FirstTag.length_lt : after.length < rest.length := by
  rw [tag.splits]
  simp only [opener, closer, List.length_append, List.length_cons]
  omega

theorem edit_replace (value : List Char) : edit (out ++ rest)
      ⟨name, (out ++ before).length, (out ++ before).length + tagLength name⟩ (.replace value) =
    ((out ++ before ++ value) ++ after, (out ++ before ++ value).length) := by
  rw [edit, tag.take_start out rest before name after, tag.drop_stop out rest before name after]
  simp [Nat.add_assoc]

theorem edit_deleteLine (upper lower : List Char) (above below : Bool)
    (upperCut : LastLineCut (out ++ before) upper above) (lowerCut : FirstLineCut after lower below) :
    edit (out ++ rest) ⟨name, (out ++ before).length, (out ++ before).length + tagLength name⟩ .deleteLine =
    ((upper ++ if above && below then [newline] else []) ++ lower,
      (upper ++ if above && below then [newline] else []).length) := by
  have ⟨upperKept, upperHas⟩ := upperCut.beforeLastLine_eq
  have ⟨lowerKept, lowerHas⟩ := lowerCut.afterFirstLine_eq
  rw [edit, deleteLine, tag.take_start out rest before name after, tag.drop_stop out rest before name after,
    upperKept, lowerKept]
  simp only [upperHas, lowerHas, Bool.and_eq_true]

end Steps

def outcome (filled : Except TagFault (List Char)) : Except TagFault.Kind String :=
  (filled.map String.ofList).mapError TagFault.kind

theorem substitute_outcome (scope : Scope) (template : String) : (substitute scope template).mapError TagFault.kind =
    outcome (fillFrom scope template.toList 0 scope.levels) := by
  rw [substitute, fill_eq, outcome]

theorem streams_of_fillFrom (scope : Scope) (out rest : List Char) (pending : List Level) :
    Streams scope out rest pending (outcome (fillFrom scope (out ++ rest) out.length pending)) := by
  generalize size : rest.length = bound
  induction bound using Nat.strongRecOn generalizing out rest pending with
  | ind bound ih =>
      subst size
      cases found : findTag rest 0 with
      | none =>
          rw [fillFrom_done scope out rest pending found]
          exact .done out rest pending found
      | some spotted =>
          obtain ⟨name, start, stop⟩ := spotted
          obtain ⟨before, after, tag⟩ := FirstTag.of_findTag rest _ found
          have shorter := tag.length_lt
          cases resolved : resolve scope pending (String.ofList name)
              (lineNumber (out ++ rest) (out ++ before).length) with
          | error fault =>
              rw [fillFrom_failed scope out rest before name after pending tag fault resolved]
              exact .failed out rest before name after pending _ fault tag resolved
          | ok step =>
              obtain ⟨resolution, later⟩ := step
              rw [fillFrom_step scope out rest before name after pending later tag resolution _ resolved]
              cases resolution with
              | replace value =>
                  rw [edit_replace out rest before name after tag]
                  exact .replaced out rest before name after value pending later _ _ tag resolved
                    (ih after.length shorter _ after later rfl)
              | deleteLine =>
                  obtain ⟨upper, above, upperCut⟩ := LastLineCut.exists (out ++ before)
                  obtain ⟨lower, below, lowerCut⟩ := FirstLineCut.exists after
                  have kept := afterFirstLine_length after
                  rw [lowerCut.afterFirstLine_eq.1] at kept
                  rw [edit_deleteLine out rest before name after tag upper lower above below upperCut lowerCut]
                  exact .removed out rest before name after upper lower above below pending later _ _ tag resolved
                    upperCut lowerCut (ih lower.length (Nat.lt_of_le_of_lt kept shorter) _ lower later rfl)

theorem outcome_of_streams (scope : Scope) (out rest : List Char) (pending : List Level)
    (result : Except TagFault.Kind String) (streamed : Streams scope out rest pending result) :
    outcome (fillFrom scope (out ++ rest) out.length pending) = result := by
  induction streamed with
  | done out rest pending noTag =>
      rw [fillFrom_done scope out rest pending noTag]
      rfl
  | replaced out rest before name after value pending later line result tag resolved _ ih =>
      rw [fillFrom_step scope out rest before name after pending later tag _ line resolved,
        edit_replace out rest before name after tag]
      exact ih
  | removed out rest before name after upper lower above below pending later line result tag resolved
      upperCut lowerCut _ ih =>
      rw [fillFrom_step scope out rest before name after pending later tag _ line resolved,
        edit_deleteLine out rest before name after tag upper lower above below upperCut lowerCut]
      exact ih
  | failed out rest before name after pending line fault tag resolved =>
      obtain ⟨here, refused, same⟩ := resolve_error scope pending (String.ofList name) line
        (lineNumber (out ++ rest) (out ++ before).length) fault resolved
      rw [fillFrom_failed scope out rest before name after pending tag here refused, ← same]
      rfl

-- The states of a run: the edited text, the position from which the next tag is sought, and the
-- levels that are left.
inductive Visits (scope : Scope) (template : List Char) : List Char → Nat → List Level → Prop where
  | start : Visits scope template template 0 scope.levels
  | step (text : List Char) (position : Nat) (pending later : List Level) (tag : Tag) (resolution : Resolution)
      (visited : Visits scope template text position pending) (found : findTag text position = some tag)
      (resolved : resolve scope pending (String.ofList tag.name) (lineNumber text tag.start) =
        .ok (resolution, later)) :
      Visits scope template (edit text tag resolution).1 (edit text tag resolution).2 later

theorem edit_remainder (text : List Char) (start : Nat) (tag : Tag) (resolution : Resolution)
    (found : findTag text start = some tag) :
    (edit text tag resolution).1.drop (edit text tag resolution).2 <:+ text.drop start ∧
      (edit text tag resolution).2 ≤ (edit text tag resolution).1.length := by
  have ⟨first, ordered, inside⟩ := findTag_bounds text start tag found
  have behind : text.drop tag.stop <:+ text.drop start := by
    have split : text.drop tag.stop = (text.drop start).drop (tag.stop - start) := by
      rw [List.drop_drop]
      congr 1
      omega
    rw [split]
    exact List.drop_suffix _ _
  cases resolution with
  | replace value =>
      have length : (text.take tag.start ++ value).length = tag.start + value.length := by
        simp
        omega
      simp only [edit]
      rw [← length, List.drop_left]
      exact ⟨behind, by simp⟩
  | deleteLine =>
      simp only [edit]
      rw [deleteLine_remainder]
      refine ⟨((List.drop_suffix _ _).trans (List.dropWhile_suffix _)).trans behind, ?_⟩
      simp [deleteLine]

theorem Visits.remainder (scope : Scope) (template text : List Char) (position : Nat) (pending : List Level)
    (visited : Visits scope template text position pending) :
    position ≤ text.length ∧ text.drop position <:+ template := by
  induction visited with
  | start => exact ⟨Nat.zero_le _, List.suffix_refl _⟩
  | step text position pending later tag resolution _ found _ ih =>
      have ⟨suffix, inside⟩ := edit_remainder text position tag resolution found
      exact ⟨inside, suffix.trans ih.2⟩

-- The run from any of its states is the rest of the whole run.
theorem Visits.fillFrom_eq (scope : Scope) (template text : List Char) (position : Nat) (pending : List Level)
    (visited : Visits scope template text position pending) :
    fillFrom scope text position pending = fill scope template := by
  induction visited with
  | start => exact (fill_eq scope template).symm
  | step text position pending later tag resolution _ found resolved ih =>
      rw [← ih, fillFrom_some scope text position pending tag found, resolved]

-- A substitution is what the reader makes of the template, and looks for tags in the template only.
theorem substitute_streams (scope : Scope) (template : String) :
    (∀ result, (substitute scope template).mapError TagFault.kind = result ↔
      Streams scope [] template.toList scope.levels result) ∧
    ∀ text position pending, Visits scope template.toList text position pending →
      fillFrom scope text position pending = fill scope template.toList ∧
      ∃ out rest, text = out ++ rest ∧ position = out.length ∧ rest <:+ template.toList ∧
        ∀ tag, findTag text position = some tag → out.length ≤ tag.start ∧ tag.stop ≤ (out ++ rest).length := by
  refine ⟨fun result => ⟨?_, ?_⟩, fun text position pending visited => ⟨visited.fillFrom_eq, ?_⟩⟩
  · rintro rfl
    rw [substitute_outcome]
    exact streams_of_fillFrom scope [] template.toList scope.levels
  · rw [substitute_outcome]
    exact outcome_of_streams scope [] template.toList scope.levels result
  · obtain ⟨inside, suffix⟩ := visited.remainder
    have length : position = (text.take position).length := by simp [inside]
    refine ⟨text.take position, text.drop position, (List.take_append_drop _ _).symm, length, suffix, ?_⟩
    intro tag found
    have ⟨first, _, last⟩ := findTag_bounds text position tag found
    rw [List.take_append_drop, ← length]
    exact ⟨first, last⟩

-- A class named like a tag: what is put in stands behind the reader.
theorem tag_like_class_streams :
    let scope : Scope := {className := "`\x7b( level )\x7d`"}
    let template := "As `\x7b( class )\x7d`"
    Streams scope [] template.toList [] (.ok "As `\x7b( level )\x7d`") ∧
    ∃ text position, Visits scope template.toList text position [] ∧
      text = "As `\x7b( level )\x7d`".toList ∧ text.drop position = [] ∧
      fillFrom scope text position [] = fill scope template.toList := by
  intro scope template
  obtain ⟨streamed, states⟩ := substitute_streams scope template
  have visited : Visits scope template.toList _ _ [] :=
    .step template.toList 0 [] [] ⟨"class".toList, 3, template.length⟩ (.replace scope.className.toList) .start
      (by decide +kernel) (by cbv)
  exact ⟨(streamed _).mp (by cbv), _, _, visited, by decide +kernel, by decide +kernel, (states _ _ _ visited).1⟩

end Markup

end ClassProgression
