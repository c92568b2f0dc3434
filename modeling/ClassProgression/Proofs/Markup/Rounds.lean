import ClassProgression.Proofs.Markup.Levels
import ClassProgression.Proofs.Markup.Slices

namespace ClassProgression.Markup.Sliced

open Text

structure State where
  text : String
  cursor : Nat
  pending : List Level
deriving DecidableEq

namespace State

-- What a round does with the tag it has found. The line is counted for every tag, whether or not it is refused.
def visit (scope : Scope) (state : State) (tag : Span) : Sliced State := do
  let line ← lineNumber state.text tag.start
  let (resolution, pending) ← (resolve scope state.pending tag.name line).mapError .fault
  let (text, cursor) ← edit state.text tag resolution
  return ⟨text, cursor, pending⟩

def remaining (state : State) : Nat := state.text.utf8ByteSize - state.cursor

structure InPlace (state : State) : Prop where
  inside : state.cursor ≤ state.text.utf8ByteSize
  between : (String.Pos.Raw.mk state.cursor).IsValid state.text

end State

-- `tries` is how many openers each search may try, `allowance` how many tags may be visited.
def fillFrom (scope : Scope) (tries allowance : Nat) (state : State) : Sliced String := do
  match ← findTag state.text tries state.cursor with
  | none => return state.text
  | some tag =>
      match allowance with
      | 0 => throw .unfinished
      | allowance + 1 =>
          let next ← state.visit scope tag
          fillFrom scope tries allowance next
termination_by structural allowance

def substitute (scope : Scope) (limit : Nat) (template : String) : Sliced String :=
  fillFrom scope limit limit ⟨template, 0, scope.levels⟩

inductive Reached (scope : Scope) (tries : Nat) (template : String) : Nat → State → Prop where
  | start : Reached scope tries template 0 ⟨template, 0, scope.levels⟩
  | round (count : Nat) (state next : State) (tag : Span) (reached : Reached scope tries template count state)
      (found : findTag state.text tries state.cursor = .ok (some tag)) (visited : state.visit scope tag = .ok next) :
      Reached scope tries template (count + 1) next

-- How a round ends. It never ends for want of a slice, or of an opener that may be tried.
inductive Round (scope : Scope) (tries : Nat) (state : State) : Prop where
  | last (noTag : findTag state.text tries state.cursor = .ok none)
  | refused (tag : Span) (cause : TagFault) (found : findTag state.text tries state.cursor = .ok (some tag))
      (refused : state.visit scope tag = .error (.fault cause))
  | further (tag : Span) (next : State) (found : findTag state.text tries state.cursor = .ok (some tag))
      (visited : state.visit scope tag = .ok next) (shorter : next.remaining < state.remaining)

def State.ofPlace (text : List Char) (position : Nat) (pending : List Level) : State :=
  ⟨String.ofList text, width (text.take position), pending⟩

section States

variable (text : List Char) (position : Nat) (pending : List Level)

theorem State.ofPlace_inPlace : (State.ofPlace text position pending).InPlace := by
  have between := valid_width (text.take position) (text.drop position)
  rw [List.take_append_drop] at between
  exact ⟨between.le_utf8ByteSize, between⟩

@[simp]
theorem State.ofPlace_remaining : (State.ofPlace text position pending).remaining = width (text.drop position) := by
  have split := width_append (text.take position) (text.drop position)
  rw [List.take_append_drop] at split
  rw [remaining, State.ofPlace, ← width_eq, split, Nat.add_sub_cancel_left]

variable (tag : Tag) (found : Markup.findTag text position = some tag)
include found

-- What is left behind an edit is shorter by the tag at least, and has an opener less.
theorem edit_behind (inside : position ≤ text.length) (resolution : Resolution) :
    width ((Markup.edit text tag resolution).1.drop (Markup.edit text tag resolution).2) < width (text.drop position) ∧
      openers ((Markup.edit text tag resolution).1.drop (Markup.edit text tag resolution).2) <
        openers (text.drop position) := by
  obtain ⟨before, after, first, drops⟩ := edit_drop text position tag resolution inside found
  have left : (Markup.edit text tag resolution).1.drop (Markup.edit text tag resolution).2 <:+ after := by
    rw [drops]
    split
    · exact (List.drop_suffix _ _).trans (List.dropWhile_suffix _)
    · exact List.suffix_refl after
  have behindOpener : after <:+ opener.tail ++ (tag.name ++ closer ++ after) := by
    rw [← List.append_assoc]
    exact List.suffix_append _ _
  have whole : text.drop position = before ++ '\x60' :: (opener.tail ++ (tag.name ++ closer ++ after)) := by
    rw [first.splits]
    simp [opener]
  rw [whole]
  constructor
  · have shorter := width_le_of_suffix _ _ (left.trans behindOpener)
    have written := Char.utf8Size_pos '\x60'
    rw [width_append, width_cons]
    omega
  · exact Nat.lt_of_le_of_lt (openers_le_of_suffix _ _ (left.trans behindOpener)) (openers_lt _ _ _ rfl)

theorem State.visit_ofPlace (scope : Scope) : (State.ofPlace text position pending).visit scope (Span.ofTag text tag) =
    match resolve scope pending (String.ofList tag.name) (Markup.lineNumber text tag.start) with
    | .error cause => .error (.fault cause)
    | .ok (resolution, later) =>
        .ok (State.ofPlace (Markup.edit text tag resolution).1 (Markup.edit text tag resolution).2 later) := by
  have ⟨_, ordered, within⟩ := findTag_bounds text position tag found
  rw [visit, State.ofPlace, Span.ofTag, lineNumber_eq, ok_bind]
  cases resolved : resolve scope pending (String.ofList tag.name) (Markup.lineNumber text tag.start) with
  | error cause => rfl
  | ok step =>
      obtain ⟨resolution, later⟩ := step
      have edited := edit_eq text tag (Nat.le_trans (Nat.le_of_lt ordered) within) resolution
      exact congrArg (· >>= fun edited => pure (State.mk edited.1 edited.2 later)) edited

end States

section Runs

variable (scope : Scope) (tries : Nat)

-- The rounds in bytes are the rounds in characters. A tag that is found takes one from the allowance.
theorem fillFrom_eq (allowance : Nat) (text : List Char) (position : Nat) (pending : List Level)
    (inside : position ≤ text.length) (enough : openers (text.drop position) ≤ tries)
    (allowed : openers (text.drop position) ≤ allowance) :
    fillFrom scope tries allowance (State.ofPlace text position pending) =
      ((Markup.fillFrom scope text position pending).map String.ofList).mapError .fault := by
  fun_induction Markup.fillFrom scope text position pending generalizing allowance with
  | case1 text position pending noTag =>
      rw [fillFrom.eq_def, State.ofPlace, findTag_eq text position inside tries enough, noTag]
      rfl
  | case2 text position pending tag found fault refused =>
      obtain ⟨_, fewer⟩ := edit_behind text position tag found inside .deleteLine
      obtain ⟨less, rfl⟩ := Nat.exists_eq_add_one_of_ne_zero (Nat.ne_zero_of_lt (Nat.lt_of_lt_of_le fewer allowed))
      have visited := State.visit_ofPlace text position pending tag found scope
      rw [refused] at visited
      rw [fillFrom, State.ofPlace, findTag_eq text position inside tries enough, found]
      exact congrArg (· >>= fillFrom scope tries less) visited
  | case3 text position pending tag found resolution later resolved ih =>
      obtain ⟨_, fewer⟩ := edit_behind text position tag found inside resolution
      obtain ⟨less, rfl⟩ := Nat.exists_eq_add_one_of_ne_zero (Nat.ne_zero_of_lt (Nat.lt_of_lt_of_le fewer allowed))
      have visited := State.visit_ofPlace text position pending tag found scope
      rw [resolved] at visited
      have ⟨_, within⟩ := edit_remainder text position tag resolution found
      rw [← ih less within (by omega) (by omega), fillFrom, State.ofPlace, findTag_eq text position inside tries enough,
        found]
      exact congrArg (· >>= fillFrom scope tries less) visited

theorem Reached.visits (template : String) (count : Nat) (state : State)
    (reached : Reached scope tries template count state) (enough : openers template.toList ≤ tries) :
    ∃ text position pending, Visits scope template.toList text position pending ∧
      state = State.ofPlace text position pending ∧
      count + openers (text.drop position) ≤ openers template.toList := by
  induction reached with
  | start =>
      refine ⟨template.toList, 0, scope.levels, .start, ?_, ?_⟩
      · rw [State.ofPlace, String.ofList_toList]
        rfl
      · rw [Nat.zero_add, List.drop_zero]
  | round count state next tag reached found visited ih =>
      obtain ⟨text, position, pending, earlier, rfl, fewer⟩ := ih
      have inside := earlier.remainder.1
      have search := findTag_eq text position inside tries (by omega)
      rw [State.ofPlace, search] at found
      obtain ⟨spotted, here, rfl⟩ := Option.map_eq_some_iff.mp (Except.ok.inj found)
      rw [State.visit_ofPlace text position pending spotted here scope] at visited
      cases resolved : resolve scope pending (String.ofList spotted.name) (Markup.lineNumber text spotted.start) with
      | error cause =>
          rw [resolved] at visited
          cases visited
      | ok step =>
          obtain ⟨resolution, later⟩ := step
          rw [resolved] at visited
          cases visited
          obtain ⟨_, less⟩ := edit_behind text position spotted here inside resolution
          exact ⟨_, _, _, .step text position pending later spotted resolution earlier here resolved, rfl, by omega⟩

theorem round_ofPlace (text : List Char) (position : Nat) (pending : List Level) (inside : position ≤ text.length)
    (enough : openers (text.drop position) ≤ tries) : Round scope tries (State.ofPlace text position pending) := by
  have search := findTag_eq text position inside tries enough
  cases found : Markup.findTag text position with
  | none =>
      rw [found] at search
      exact .last search
  | some tag =>
      rw [found] at search
      have visited := State.visit_ofPlace text position pending tag found scope
      cases resolved : resolve scope pending (String.ofList tag.name) (Markup.lineNumber text tag.start) with
      | error cause =>
          rw [resolved] at visited
          exact .refused _ cause search visited
      | ok step =>
          obtain ⟨resolution, later⟩ := step
          rw [resolved] at visited
          refine .further _ _ search visited ?_
          rw [State.ofPlace_remaining, State.ofPlace_remaining]
          exact (edit_behind text position tag found inside resolution).1

end Runs

-- Every template and every scope, however long its values are and whatever stands in them. With as many rounds as the
-- template has openers both loops come to their ends.
theorem rounds_in_place (scope : Scope) (template : String) (limit : Nat) (enough : openers template.toList ≤ limit) :
    substitute scope limit template = (Markup.substitute scope template).mapError .fault ∧
    ∀ count state, Reached scope limit template count state →
      count ≤ openers template.toList ∧ state.InPlace ∧ Round scope limit state := by
  refine ⟨?_, fun count state reached => ?_⟩
  · have filled := fillFrom_eq scope limit limit template.toList 0 scope.levels (Nat.zero_le _) enough enough
    rw [State.ofPlace, String.ofList_toList] at filled
    rw [Markup.substitute, fill_eq]
    exact filled
  · obtain ⟨text, position, pending, visited, rfl, fewer⟩ := reached.visits scope limit template count state enough
    refine ⟨by omega, State.ofPlace_inPlace text position pending, ?_⟩
    exact round_ofPlace scope limit text position pending visited.remainder.1 (by omega)

-- The first search tries an opener without a tag. The value put in looks like a tag and ends on the line of the next tag,
-- which is removed, and the cursor goes back into the value.
theorem cursor_back_into_value :
    let scope : Scope := {className := "Bard", terms := NameMap.ofList [("verse", "`\x7b( level )\x7d`\nö")]}
    let template := "é `\x7b( x\nß `\x7b( verse )\x7d` `\x7b( level )\x7d` ü\n`\x7b( class )\x7d` ö"
    let replaced : State :=
      ⟨"é `\x7b( x\nß `\x7b( level )\x7d`\nö `\x7b( level )\x7d` ü\n`\x7b( class )\x7d` ö", 28, []⟩
    let removed : State := ⟨"é `\x7b( x\nß `\x7b( level )\x7d`\n`\x7b( class )\x7d` ö", 26, []⟩
    openers template.toList ≤ 4 ∧ substitute scope 4 template = .ok "é `\x7b( x\nß `\x7b( level )\x7d`\nBard ö" ∧
    substitute scope 4 template = (Markup.substitute scope template).mapError .fault ∧
    Reached scope 4 template 1 replaced ∧ Reached scope 4 template 2 removed ∧
    replaced.InPlace ∧ removed.InPlace ∧ removed.remaining < replaced.remaining ∧ Round scope 4 removed := by
  intro scope template replaced removed
  have enough : openers template.toList ≤ 4 := by decide +kernel
  obtain ⟨filled, rounds⟩ := rounds_in_place scope template 4 enough
  have first : Reached scope 4 template 1 replaced :=
    .round 0 ⟨template, 0, []⟩ replaced ⟨"verse", 12, 25⟩ .start (by decide +kernel) (by decide +kernel)
  have second : Reached scope 4 template 2 removed :=
    .round 1 replaced removed ⟨"level", 29, 42⟩ first (by decide +kernel) (by decide +kernel)
  have ⟨_, firstInPlace, _⟩ := rounds 1 replaced first
  have ⟨_, secondInPlace, ends⟩ := rounds 2 removed second
  exact ⟨enough, by decide +kernel, filled, first, second, firstInPlace, secondInPlace, by decide +kernel, ends⟩

end ClassProgression.Markup.Sliced
