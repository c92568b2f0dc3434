import ClassProgression.NameMap.Lemmas
import ClassProgression.Proofs.Markup.Levels

namespace ClassProgression.Markup

open Text

-- A line that is being read: `out` is written of it, `rest` is left of it. Nothing comes of a line
-- that is dropped, and what stands behind the tag that drops it is not looked at.
inductive LineReads (scope : Scope) : List Char → List Char → List Level →
    Except TagFault.Kind (Option (List Char) × List Level) → Prop where
  | done (out rest : List Char) (pending : List Level) (noTag : findTag rest 0 = none) :
      LineReads scope out rest pending (.ok (some (out ++ rest), pending))
  | replaced (out rest before name after value : List Char) (pending later : List Level) (line : Nat)
      (outcome : Except TagFault.Kind (Option (List Char) × List Level)) (tag : FirstTag rest before name after)
      (resolved : resolve scope pending (String.ofList name) line = .ok (.replace value, later))
      (continued : LineReads scope (out ++ before ++ value) after later outcome) :
      LineReads scope out rest pending outcome
  | dropped (out rest before name after : List Char) (pending later : List Level) (line : Nat)
      (tag : FirstTag rest before name after)
      (resolved : resolve scope pending (String.ofList name) line = .ok (.deleteLine, later)) :
      LineReads scope out rest pending (.ok (none, later))
  | failed (out rest before name after : List Char) (pending : List Level) (line : Nat) (fault : TagFault)
      (tag : FirstTag rest before name after)
      (resolved : resolve scope pending (String.ofList name) line = .error fault) :
      LineReads scope out rest pending (.error fault.kind)

-- The lines one after the other, up to the first fault. What they come to is the lines that are kept.
inductive LinesRead (scope : Scope) : List (List Char) → List Level → Except TagFault.Kind (List (List Char)) → Prop where
  | none (pending : List Level) : LinesRead scope [] pending (.ok [])
  | line (line : List Char) (others : List (List Char)) (pending later : List Level) (kept : Option (List Char))
      (outcome : Except TagFault.Kind (List (List Char))) (read : LineReads scope [] line pending (.ok (kept, later)))
      (further : LinesRead scope others later outcome) :
      LinesRead scope (line :: others) pending (outcome.map (kept.toList ++ ·))
  | failed (line : List Char) (others : List (List Char)) (pending : List Level) (kind : TagFault.Kind)
      (refused : LineReads scope [] line pending (.error kind)) :
      LinesRead scope (line :: others) pending (.error kind)

-- What is put in for a tag stays on its line.
structure Scope.Plain (scope : Scope) : Prop where
  className : newline ∉ scope.className.toList
  terms : ∀ name value, scope.terms.get? name = some value → newline ∉ value.toList

section Phrases

theorem mem_intercalate (c : Char) (separator : List Char) (parts : List (List Char))
    (member : c ∈ separator.intercalate parts) : c ∈ separator ∨ ∃ part ∈ parts, c ∈ part := by
  induction parts with
  | nil => cases member
  | cons first rest ih =>
      cases rest with
      | nil => exact .inr ⟨first, List.mem_cons_self, by simpa [List.intercalate] using member⟩
      | cons next more =>
          rw [List.intercalate, List.intersperse_cons_cons, List.flatten_cons, List.flatten_cons, List.mem_append,
            List.mem_append] at member
          rcases member with inFirst | between | later
          · exact .inr ⟨first, List.mem_cons_self, inFirst⟩
          · exact .inl between
          · exact (ih later).imp_right fun ⟨part, listed, inPart⟩ => ⟨part, List.mem_cons_of_mem first listed, inPart⟩

def worded (c : Char) : Bool := c.isAlphanum || c == ' ' || c == ','

theorem ordinal_worded (level : Level) : ∀ c ∈ level.ordinal.toList, worded c = true := by
  intro c member
  rw [Level.ordinal, String.toList_append, List.mem_append] at member
  rcases member with digit | suffix
  · rw [Nat.repr_eq_ofList_toDigits, String.toList_ofList] at digit
    have isDigit := Nat.isDigit_of_mem_toDigits (by decide) (by decide) digit
    simp [worded, Char.isAlphanum, isDigit]
  · revert c
    unfold Level.suffix
    split
    · simp [worded]
    · split <;> simp [worded]

theorem intercalate_worded (separator : String) (parts : List String) (between : ∀ c ∈ separator.toList, worded c = true)
    (words : ∀ part ∈ parts, ∀ c ∈ part.toList, worded c = true) :
    ∀ c ∈ (separator.intercalate parts).toList, worded c = true := by
  intro c member
  rw [String.toList_intercalate] at member
  rcases mem_intercalate _ _ _ member with inSeparator | ⟨part, listed, inPart⟩
  · exact between c inSeparator
  · obtain ⟨name, inParts, rfl⟩ := List.mem_map.mp listed
    exact words name inParts c inPart

theorem phrase_worded (levels : List Level) (text : String) (phrased : Level.phrase levels = .ok text) :
    ∀ c ∈ text.toList, worded c = true := by
  have names : ∀ name ∈ levels.map Level.ordinal, ∀ c ∈ name.toList, worded c = true :=
    List.forall_mem_map.mpr fun level _ => ordinal_worded level
  unfold Level.phrase at phrased
  generalize levels.map Level.ordinal = ordinals at names phrased
  have level : ∀ c ∈ " level".toList, worded c = true := by simp [worded]
  have again : ∀ c ∈ " level and again at ".toList, worded c = true := by simp [worded]
  match ordinals with
  | [] => cases phrased
  | [only] =>
      rw [← Except.ok.inj phrased]
      simp only [String.toList_append, List.forall_mem_append]
      exact ⟨names only List.mem_cons_self, level⟩
  | [first, second] =>
      simp only [List.forall_mem_cons] at names
      rw [← Except.ok.inj phrased]
      simp only [String.toList_append, List.forall_mem_append]
      exact ⟨⟨⟨names.1, again⟩, names.2.1⟩, level⟩
  | [first, second, third] =>
      simp only [List.forall_mem_cons] at names
      rw [← Except.ok.inj phrased]
      simp only [String.toList_append, List.forall_mem_append]
      exact ⟨⟨⟨⟨⟨names.1, again⟩, names.2.1⟩, by simp [worded]⟩, names.2.2.1⟩, level⟩
  | first :: second :: third :: fourth :: more =>
      have ⟨inFirst, later⟩ := List.forall_mem_cons.mp names
      have last : ∀ c ∈ ((second :: third :: fourth :: more).getLastD "").toList, worded c = true := by
        rw [List.getLastD_eq_getLast?, List.getLast?_eq_some_getLast (List.cons_ne_nil _ _), Option.getD_some]
        exact later _ (List.getLast_mem _)
      rw [← Except.ok.inj phrased]
      simp only [String.toList_append, List.forall_mem_append]
      refine ⟨⟨⟨⟨⟨inFirst, again⟩, ?_⟩, by simp [worded]⟩, last⟩, level⟩
      exact intercalate_worded _ _ (by simp [worded]) fun name listed => later name (List.dropLast_subset _ listed)

theorem phrase_plain (levels : List Level) (text : String) (phrased : Level.phrase levels = .ok text) :
    newline ∉ text.toList := fun member =>
  absurd (phrase_worded levels text phrased newline member) (by decide)

theorem Scope.Plain.value (scope : Scope) (plain : scope.Plain) (pending later : List Level) (visit : Visit)
    (resolves : Resolves scope pending visit later) (value : List Char) (put : visit.resolution = .replace value) :
    newline ∉ value := by
  cases resolves with
  | className => cases put; exact plain.className
  | term _ name text held => cases put; exact plain.terms name text held
  | allLevels _ text phrased => cases put; exact phrase_plain _ text phrased
  | nextLevel _ _ text phrased => cases put; exact phrase_plain _ text phrased
  | remainingLevels _ text _ phrased => cases put; exact phrase_plain _ text phrased
  | gone => cases put

end Phrases

section Lines

-- A tag lies within a line: what follows the line's end neither makes nor unmakes it.

theorem isPrefixOf_line (pattern line rest : List Char) (plain : newline ∉ pattern) :
    pattern.isPrefixOf (line ++ newline :: rest) = pattern.isPrefixOf line := by
  induction pattern generalizing line with
  | nil => simp
  | cons c others ih =>
      rw [List.mem_cons, not_or] at plain
      cases line with
      | nil =>
          have differs : (c == newline) = false := beq_false_of_ne (Ne.symm plain.1)
          simp only [List.nil_append, List.isPrefixOf, differs, Bool.false_and]
      | cons d more => simp only [List.cons_append, List.isPrefixOf, ih more plain.2]

theorem tagAtHead?_line (line rest : List Char) :
    tagAtHead? (line ++ newline :: rest) = tagAtHead? line := by
  unfold tagAtHead? startsWith
  rw [isPrefixOf_line opener line rest (by decide)]
  split
  · rename_i stands
    obtain ⟨inner, rfl⟩ := List.isPrefixOf_iff_prefix.mp stands
    rw [List.append_assoc, List.drop_left, List.drop_left, takeWhile_newline]
  · rfl

theorem firstTag?_cons (c : Char) (rest : List Char) (position : Nat) : firstTag? (c :: rest) position =
    match tagAtHead? (c :: rest) with
    | some name => some ⟨name, position, position + tagLength name⟩
    | none => firstTag? rest (position + 1) := rfl

theorem firstTag?_line (line rest : List Char) (position : Nat) :
    firstTag? (line ++ newline :: rest) position =
      (firstTag? line position).or (firstTag? rest (position + (line.length + 1))) := by
  induction line generalizing position with
  | nil =>
      have absent : tagAtHead? (newline :: rest) = none := tagAtHead?_line [] rest
      rw [List.nil_append, firstTag?_cons, absent]
      rfl
  | cons c more ih =>
      have head := tagAtHead?_line (c :: more) rest
      rw [List.cons_append] at head ⊢
      rw [firstTag?_cons, firstTag?_cons, head]
      cases tagAtHead? (c :: more) with
      | some name => rfl
      | none =>
          have behind : position + ((c :: more).length + 1) = position + 1 + (more.length + 1) := by
            rw [List.length_cons]
            omega
          rw [behind]
          exact ih (position + 1)

theorem findTag_line (line rest : List Char) : findTag (line ++ newline :: rest) 0 =
    (findTag line 0).or ((findTag rest 0).map fun tag =>
      ⟨tag.name, tag.start + (line.length + 1), tag.stop + (line.length + 1)⟩) := by
  rw [findTag, findTag, findTag, List.drop_zero, List.drop_zero, List.drop_zero, firstTag?_line line rest 0,
    firstTag?_shift]

theorem unlines_cons (line : List Char) (below : List (List Char)) (inhabited : below ≠ []) :
    unlines (line :: below) = line ++ newline :: unlines below := by
  cases below with
  | nil => exact absurd rfl inhabited
  | cons next more => rfl

theorem FirstTag.plain (line before name after : List Char) (tag : FirstTag line before name after)
    (plain : newline ∉ line) : newline ∉ before ∧ newline ∉ after := by
  rw [tag.splits, List.mem_append, List.mem_append, not_or, not_or] at plain
  exact ⟨plain.1.1, plain.2⟩

theorem FirstTag.unlines (line before name after : List Char) (tag : FirstTag line before name after)
    (below : List (List Char)) :
    FirstTag (unlines (line :: below)) before name (unlines (after :: below)) := by
  by_cases last : below = []
  · subst last
    exact tag
  · rw [unlines_cons line below last, unlines_cons after below last]
    refine ⟨?_, ?_⟩
    · rw [tag.splits, List.append_assoc]
    · rw [findTag_line line, tag.first]
      rfl

def written (kept : List (List Char)) (out : List Char) : List Char := unlines (kept ++ [out])

theorem written_append (kept : List (List Char)) (out more : List Char) :
    written kept out ++ more = written kept (out ++ more) := by
  unfold written
  by_cases first : kept = []
  · subst first
    rfl
  · rw [unlines_append kept [out] first (by simp), unlines_append kept [out ++ more] first (by simp)]
    simp [Text.unlines]

theorem written_nil (kept : List (List Char)) (inhabited : kept ≠ []) : written kept [] = unlines kept ++ [newline] :=
  unlines_append kept [[]] inhabited (by simp)

theorem written_line (kept : List (List Char)) (line : List Char) :
    written (kept ++ [line]) [] = written kept line ++ [newline] :=
  written_nil (kept ++ [line]) (by simp)

end Lines

section Runs

variable (scope : Scope)

theorem fillFrom_moved (text : List Char) (position other : Nat) (pending : List Level)
    (same : findTag text position = findTag text other) :
    fillFrom scope text position pending = fillFrom scope text other pending := by
  cases found : findTag text other with
  | none => rw [fillFrom_none scope text other pending found, fillFrom_none scope text position pending (same.trans found)]
  | some tag =>
      rw [fillFrom_some scope text other pending tag found,
        fillFrom_some scope text position pending tag (same.trans found)]

-- The outcome of a filling that stands before the lines `below`, with the lines `kept` written.
def resumed (kept below : List (List Char)) (pending : List Level) : Except TagFault.Kind String :=
  if below = [] then .ok (String.ofList (unlines kept))
  else outcome (fillFrom scope (written kept [] ++ unlines below) (written kept []).length pending)

theorem resumed_passed (kept below : List (List Char)) (out rest : List Char) (pending : List Level)
    (noTag : findTag rest 0 = none) :
    outcome (fillFrom scope (written kept out ++ unlines (rest :: below)) (written kept out).length pending) =
      resumed scope (kept ++ [out ++ rest]) below pending := by
  unfold resumed
  split
  · rename_i last
    subst last
    rw [show unlines [rest] = rest from rfl, fillFrom_done scope _ rest pending noTag, written_append]
    rfl
  · rename_i further
    have text : written kept out ++ unlines (rest :: below) =
        written (kept ++ [out ++ rest]) [] ++ unlines below := by
      rw [unlines_cons rest below further, written_line, ← written_append]
      simp
    have later : findTag (written kept out ++ unlines (rest :: below)) (written kept out).length =
        findTag (written (kept ++ [out ++ rest]) [] ++ unlines below) (written (kept ++ [out ++ rest]) []).length := by
      rw [findTag_append, findTag_append, unlines_cons rest below further, findTag_line rest, noTag, written_line,
        ← written_append]
      cases findTag (unlines below) 0 with
      | none => rfl
      | some tag =>
          simp only [Option.none_or, Option.map_some, List.length_append, List.length_singleton]
          congr 2 <;> omega
    rw [fillFrom_moved scope _ _ _ pending (later.trans (by rw [text])), text]

theorem resumed_dropped (kept below : List (List Char)) (out rest before name after : List Char)
    (pending later : List Level) (line : Nat) (tag : FirstTag rest before name after) (plainOut : newline ∉ out)
    (plainRest : newline ∉ rest)
    (resolved : resolve scope pending (String.ofList name) line = .ok (.deleteLine, later)) :
    outcome (fillFrom scope (written kept out ++ unlines (rest :: below)) (written kept out).length pending) =
      resumed scope kept below later := by
  have whole := tag.unlines rest before name after below
  have ⟨plainBefore, plainAfter⟩ := tag.plain rest before name after plainRest
  have plainLine : newline ∉ out ++ before := by
    rw [List.mem_append, not_or]
    exact ⟨plainOut, plainBefore⟩
  obtain ⟨upper, above, upperCut, upperIs⟩ : ∃ upper above, LastLineCut (written kept out ++ before) upper above ∧
      ((kept = [] ∧ upper = [] ∧ above = false) ∨ (kept ≠ [] ∧ upper = unlines kept ∧ above = true)) := by
    rw [written_append, written]
    by_cases first : kept = []
    · subst first
      exact ⟨[], false, .whole _ plainLine, .inl ⟨rfl, rfl, rfl⟩⟩
    · rw [unlines_append kept _ first (by simp)]
      exact ⟨_, true, .cut _ _ plainLine, .inr ⟨first, rfl, rfl⟩⟩
  obtain ⟨lower, under, lowerCut, lowerIs⟩ : ∃ lower under, FirstLineCut (unlines (after :: below)) lower under ∧
      ((below = [] ∧ lower = [] ∧ under = false) ∨ (below ≠ [] ∧ lower = unlines below ∧ under = true)) := by
    by_cases last : below = []
    · subst last
      exact ⟨[], false, .whole _ plainAfter, .inl ⟨rfl, rfl, rfl⟩⟩
    · rw [unlines_cons after below last]
      exact ⟨_, true, .cut _ _ plainAfter, .inr ⟨last, rfl, rfl⟩⟩
  rw [fillFrom_step scope _ _ before name _ pending later whole _ line resolved,
    edit_deleteLine _ _ before name _ whole upper lower above under upperCut lowerCut]
  unfold resumed
  rcases lowerIs with ⟨rfl, rfl, rfl⟩ | ⟨further, rfl, rfl⟩
  · rw [Bool.and_false, fillFrom_done scope _ [] later rfl, if_pos rfl]
    rcases upperIs with ⟨rfl, rfl, _⟩ | ⟨_, rfl, _⟩ <;> simp [outcome, unlines, Except.map, Except.mapError]
  · rw [if_neg further, Bool.and_true]
    rcases upperIs with ⟨rfl, rfl, rfl⟩ | ⟨first, rfl, rfl⟩
    · rfl
    · rw [written_nil kept first]
      rfl

variable (plain : scope.Plain)
include plain

-- Reading a line is what the filling does from the line's start, or from where it stands on the line.
theorem LineReads.resumed (out rest : List Char) (pending : List Level)
    (result : Except TagFault.Kind (Option (List Char) × List Level)) (reads : LineReads scope out rest pending result)
    (plainOut : newline ∉ out) (plainRest : newline ∉ rest) (kept below : List (List Char)) :
    outcome (fillFrom scope (written kept out ++ unlines (rest :: below)) (written kept out).length pending) =
      result.bind fun read => Markup.resumed scope (kept ++ read.1.toList) below read.2 := by
  induction reads with
  | done out rest pending noTag => exact resumed_passed scope kept below out rest pending noTag
  | replaced out rest before name after value pending later line result tag resolved _ ih =>
      have resolves := resolve_resolves scope pending later _ _ _ resolved
      have ⟨plainBefore, plainAfter⟩ := tag.plain rest before name after plainRest
      have plainNext : newline ∉ out ++ before ++ value := by
        rw [List.mem_append, List.mem_append, not_or, not_or]
        exact ⟨⟨plainOut, plainBefore⟩, plain.value scope pending later _ resolves value rfl⟩
      have whole := tag.unlines rest before name after below
      rw [fillFrom_step scope _ _ before name _ pending later whole _ line resolved,
        edit_replace _ _ before name _ whole, written_append, written_append]
      exact ih plainNext plainAfter
  | dropped out rest before name after pending later line tag resolved =>
      rw [resumed_dropped scope kept below out rest before name after pending later line tag plainOut plainRest resolved]
      exact congrArg (Markup.resumed scope · below later) (List.append_nil kept).symm
  | failed out rest before name after pending line fault tag resolved =>
      have whole := tag.unlines rest before name after below
      obtain ⟨here, refused, same⟩ := resolve_error scope pending (String.ofList name) line
        (lineNumber (written kept out ++ unlines (rest :: below)) (written kept out ++ before).length) fault resolved
      rw [fillFrom_failed scope _ _ before name _ pending whole here refused, ← same]
      rfl

theorem LinesRead.resumed (below : List (List Char)) (pending : List Level)
    (read : Except TagFault.Kind (List (List Char))) (reads : LinesRead scope below pending read)
    (plainLines : ∀ line ∈ below, newline ∉ line) (kept : List (List Char)) :
    Markup.resumed scope kept below pending = read.map fun more => String.ofList (unlines (kept ++ more)) := by
  induction reads generalizing kept with
  | none pending => exact congrArg (fun lines => Except.ok (String.ofList (unlines lines))) (List.append_nil kept).symm
  | line line others pending later text result first _ ih =>
      have step := first.resumed scope plain _ _ _ _ List.not_mem_nil (plainLines line List.mem_cons_self) kept others
      rw [Markup.resumed, if_neg (List.cons_ne_nil line others), step, Except.bind,
        ih fun other later => plainLines other (List.mem_cons_of_mem line later)]
      cases result with
      | error kind => rfl
      | ok more => simp only [Except.map, List.append_assoc]
  | failed line others pending kind refused =>
      have step := refused.resumed scope plain _ _ _ _ List.not_mem_nil (plainLines line List.mem_cons_self) kept others
      rw [Markup.resumed, if_neg (List.cons_ne_nil line others), step]
      rfl

end Runs

section Existence

variable (scope : Scope)

theorem LineReads.exists (out rest : List Char) (pending : List Level) :
    ∃ result, LineReads scope out rest pending result := by
  generalize size : rest.length = bound
  induction bound using Nat.strongRecOn generalizing out rest pending with
  | ind bound ih =>
      subst size
      cases found : findTag rest 0 with
      | none => exact ⟨_, .done out rest pending found⟩
      | some spotted =>
          obtain ⟨before, after, tag⟩ := FirstTag.of_findTag rest spotted found
          cases resolved : resolve scope pending (String.ofList spotted.name) 0 with
          | error fault => exact ⟨_, .failed out rest before _ after pending 0 fault tag resolved⟩
          | ok step =>
              obtain ⟨resolution, later⟩ := step
              cases resolution with
              | deleteLine => exact ⟨_, .dropped out rest before _ after pending later 0 tag resolved⟩
              | replace value =>
                  obtain ⟨result, continued⟩ := ih after.length tag.length_lt (out ++ before ++ value) after later rfl
                  exact ⟨result, .replaced out rest before _ after value pending later 0 result tag resolved continued⟩

theorem LinesRead.exists (lines : List (List Char)) (pending : List Level) :
    ∃ read, LinesRead scope lines pending read := by
  induction lines generalizing pending with
  | nil => exact ⟨_, .none pending⟩
  | cons line others ih =>
      obtain ⟨result, first⟩ := LineReads.exists scope [] line pending
      cases result with
      | error kind => exact ⟨_, .failed line others pending kind first⟩
      | ok step =>
          obtain ⟨kept, later⟩ := step
          obtain ⟨read, further⟩ := ih later
          exact ⟨_, .line line others pending later kept read first further⟩

end Existence

-- A template whose values stay on their lines, line by line.
theorem substitute_by_lines (scope : Scope) (template : String) (plain : scope.Plain)
    (result : Except TagFault.Kind String) :
    (substitute scope template).mapError TagFault.kind = result ↔
      ∃ read, LinesRead scope (lines template.toList) scope.levels read ∧
        result = read.map fun kept => String.ofList (unlines kept) := by
  have whole : (substitute scope template).mapError TagFault.kind =
      resumed scope [] (lines template.toList) scope.levels := by
    rw [resumed, if_neg (lines_ne_nil _), unlines_lines]
    exact substitute_outcome scope template
  have read (outcome : Except TagFault.Kind (List (List Char)))
      (reads : LinesRead scope (lines template.toList) scope.levels outcome) :
      (substitute scope template).mapError TagFault.kind = outcome.map fun kept => String.ofList (unlines kept) :=
    whole.trans (reads.resumed scope plain _ _ _ (plain_of_mem_lines template.toList) [])
  constructor
  · rintro rfl
    obtain ⟨outcome, reads⟩ := LinesRead.exists scope (lines template.toList) scope.levels
    exact ⟨outcome, reads, read outcome reads⟩
  · rintro ⟨outcome, reads, rfl⟩
    exact read outcome reads

-- The only level is taken on the first line; the second line goes, its last tag unread.
theorem second_line_dropped :
    let scope : Scope :=
      {className := "Bard", levels := [3], terms := NameMap.ofList [("die", "d8")], ascending := by decide}
    let template := "`\x7b( die )\x7d`, `\x7b( level )\x7d`\n`\x7b( level )\x7d` `\x7b( none )\x7d`\n`\x7b( class )\x7d`"
    scope.Plain ∧ ∃ read, LinesRead scope (lines template.toList) [3] read ∧
      .ok "d8, 3rd level\nBard" = read.map fun kept => String.ofList (unlines kept) := by
  intro scope template
  have plain : scope.Plain := by
    refine ⟨by decide, fun name value held => ?_⟩
    have entry : (name, value) ∈ [("die", "d8")] := NameMap.mem_of_lookup name value _ held
    cases List.mem_singleton.mp entry
    decide
  exact ⟨plain, (substitute_by_lines scope template plain _).mp (by decide +kernel)⟩

end ClassProgression.Markup
