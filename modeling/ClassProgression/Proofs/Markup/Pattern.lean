import ClassProgression.Markup.Tag
import Mathlib.Data.List.TakeWhile

namespace ClassProgression.Markup

open Text

-- A text as it is spelled, or a run of at least one character, of which shorter ones are tried first.
inductive Piece where
  | spelled (text : List Char)
  | shortRun (accepts : Char → Bool)

namespace Piece

def runs (accepts : Char → Bool) : List Char → List (List Char)
  | [] => []
  | c :: rest => if accepts c then [c] :: (runs accepts rest).map (c :: ·) else []

def tries (text : List Char) : Piece → List (List Char)
  | .spelled spelling => if startsWith spelling text then [spelling] else []
  | .shortRun accepts => runs accepts text

end Piece

-- The matches at the head of a text, each with what its pieces have taken. An earlier piece is only tried again when
-- the later ones have nothing left to try.
def matchesAtHead : List Piece → List Char → List (List (List Char))
  | [], _ => [[]]
  | piece :: others, text =>
      (piece.tries text).flatMap fun taken => (matchesAtHead others (text.drop taken.length)).map (taken :: ·)

def leftmostMatch? (pattern : List Piece) : List Char → Nat → Option (Nat × List (List Char))
  | [], position => (matchesAtHead pattern []).head?.map (position, ·)
  | c :: rest, position =>
      ((matchesAtHead pattern (c :: rest)).head?.map (position, ·)).or (leftmostMatch? pattern rest (position + 1))

def tagPattern : List Piece := [.spelled opener, .shortRun (· ≠ newline), .spelled closer]

-- Goes from opener to opener. Where no name follows on the opener's line, the search goes on one character later.
def scanFrom (text : List Char) (position : Nat) : Option Tag :=
  match _found : splitBefore? opener text with
  | none => none
  | some (before, later) =>
      match nameIn? ((later.drop opener.length).takeWhile (· ≠ newline)) with
      | some name => some ⟨name, position + before.length, position + before.length + tagLength name⟩
      | none => scanFrom (later.drop 1) (position + before.length + 1)
termination_by text.length
decreasing_by
  have ⟨joined, stands⟩ := splitBefore_append opener text _ _found
  have long := stands.length_le
  have whole := congrArg List.length joined
  simp only [opener, List.length_cons, List.length_nil, List.length_append, List.length_drop] at long whole ⊢
  omega

-- A tag stands at the head of a text. What follows its closer, and whether an earlier closer would do, is left open.
structure Stands (text name : List Char) : Prop where
  spelled : opener ++ name ++ closer <+: text
  inhabited : name ≠ []
  inLine : newline ∉ name

-- The name ends at the first closer that can end it.
structure StandsFirst (text name : List Char) : Prop where
  stands : Stands text name
  shortest : ∀ other, Stands text other → name.length ≤ other.length

structure Leftmost (text : List Char) (start : Nat) (tag : Tag) : Prop where
  behind : start ≤ tag.start
  stands : StandsFirst (text.drop tag.start) tag.name
  stop : tag.stop = tag.start + (opener ++ tag.name ++ closer).length
  least : ∀ position, start ≤ position → ∀ name, Stands (text.drop position) name → tag.start ≤ position

section Closers

theorem splitBefore?_least (pattern text : List Char) (parts : List Char × List Char)
    (found : splitBefore? pattern text = some parts) (before later : List Char) (whole : before ++ later = text)
    (stands : pattern <+: later) : parts.1.length ≤ before.length := by
  induction text generalizing parts before with
  | nil =>
      unfold splitBefore? at found
      split at found <;> cases found
      exact Nat.zero_le _
  | cons c rest ih =>
      unfold splitBefore? at found
      split at found
      · cases found
        exact Nat.zero_le _
      · rename_i elsewhere
        obtain ⟨inner, split, rfl⟩ := Option.map_eq_some_iff.mp found
        cases before with
        | nil =>
            rw [List.nil_append] at whole
            subst whole
            exact absurd (List.isPrefixOf_iff_prefix.mpr stands) elsewhere
        | cons d more => exact Nat.succ_le_succ (ih inner split more (List.cons.inj whole).2)

theorem splitBefore?_isSome (pattern before later : List Char) (stands : pattern <+: later) :
    (splitBefore? pattern (before ++ later)).isSome := by
  induction before with
  | nil =>
      cases later with
      | nil => simp [splitBefore?, startsWith, List.prefix_nil.mp stands]
      | cons c rest => simp [splitBefore?, startsWith, List.isPrefixOf_iff_prefix.mpr stands]
  | cons c rest ih =>
      rw [List.cons_append, splitBefore?]
      split
      · rfl
      · simpa using ih

theorem closed_behind (first : Char) (rest name : List Char) (inhabited : name ≠ [])
    (stands : name ++ closer <+: first :: rest) :
    ∃ more later, name = first :: more ∧ more ++ later = rest ∧ closer <+: later := by
  obtain ⟨c, more, rfl⟩ := List.exists_cons_of_ne_nil inhabited
  obtain ⟨same, ⟨after, whole⟩⟩ := List.cons_prefix_cons.mp stands
  exact ⟨more, closer ++ after, by rw [same], (List.append_assoc ..).symm.trans whole, List.prefix_append _ _⟩

theorem nameIn?_isSome (line name : List Char) (inhabited : name ≠ []) (stands : name ++ closer <+: line) :
    (nameIn? line).isSome := by
  cases line with
  | nil => simp [closer] at stands
  | cons first rest =>
      obtain ⟨more, later, rfl, rfl, closes⟩ := closed_behind first rest name inhabited stands
      rw [nameIn?, Option.isSome_map]
      exact splitBefore?_isSome closer more later closes

theorem nameIn?_spec (line name : List Char) (found : nameIn? line = some name) :
    (name ≠ [] ∧ name ++ closer <+: line) ∧ ∀ other, other ≠ [] → other ++ closer <+: line → name.length ≤ other.length := by
  cases line with
  | nil => cases found
  | cons first rest =>
      obtain ⟨parts, split, rfl⟩ := Option.map_eq_some_iff.mp found
      have ⟨joined, stands⟩ := splitBefore_append closer rest parts split
      refine ⟨⟨List.cons_ne_nil _ _, ?_⟩, fun other inhabited also => ?_⟩
      · rw [List.cons_append, ← joined]
        exact List.cons_prefix_cons.mpr ⟨rfl, (List.prefix_append_right_inj parts.1).mpr stands⟩
      · obtain ⟨more, later, rfl, whole, closes⟩ := closed_behind first rest other inhabited also
        exact Nat.succ_le_succ (splitBefore?_least closer rest parts split more later whole closes)

theorem nameIn?_eq_some (line name : List Char) : nameIn? line = some name ↔
    (name ≠ [] ∧ name ++ closer <+: line) ∧ ∀ other, other ≠ [] → other ++ closer <+: line → name.length ≤ other.length := by
  refine ⟨nameIn?_spec line name, ?_⟩
  rintro ⟨⟨inhabited, stands⟩, shortest⟩
  obtain ⟨other, found⟩ := Option.isSome_iff_exists.mp (nameIn?_isSome line name inhabited stands)
  have ⟨⟨otherInhabited, otherStands⟩, otherShortest⟩ := nameIn?_spec line other found
  have length := Nat.le_antisymm (otherShortest name inhabited stands) (shortest other otherInhabited otherStands)
  -- Both names begin the line, so names of one length are one name.
  have same : other = name := by
    have start := List.prefix_of_prefix_length_le ((List.prefix_append other closer).trans otherStands)
      ((List.prefix_append name closer).trans stands) (Nat.le_of_eq length)
    exact start.eq_of_length length
  rw [found, same]

end Closers

section Names

theorem prefix_takeWhile (accepts : Char → Bool) (start text : List Char) :
    start <+: text.takeWhile accepts ↔ start <+: text ∧ ∀ c ∈ start, accepts c = true := by
  constructor
  · intro within
    exact ⟨within.trans (List.takeWhile_prefix _), fun c member => List.mem_takeWhile_imp (within.subset member)⟩
  · rintro ⟨⟨after, rfl⟩, accepted⟩
    rw [List.takeWhile_append_of_pos accepted]
    exact List.prefix_append _ _

-- On the line of an opener: the closer has no newline, so the name decides.
theorem stands_iff (text name : List Char) : Stands text name ↔
    opener <+: text ∧ name ≠ [] ∧ name ++ closer <+: (text.drop opener.length).takeWhile (· ≠ newline) := by
  have noNewline : ∀ c ∈ closer, c ≠ newline := by simp [closer, newline]
  constructor
  · rintro ⟨⟨after, rfl⟩, inhabited, inLine⟩
    refine ⟨by simp only [List.append_assoc, List.prefix_append], inhabited, (prefix_takeWhile _ _ _).mpr ⟨?_, ?_⟩⟩
    · simp only [List.append_assoc, List.drop_left]
      exact (List.prefix_append_right_inj name).mpr (List.prefix_append _ _)
    · intro c member
      rcases List.mem_append.mp member with inName | inCloser
      · simpa using fun same : c = newline => inLine (same ▸ inName)
      · simpa using noNewline c inCloser
  · rintro ⟨⟨after, rfl⟩, inhabited, onLine⟩
    obtain ⟨named, plain⟩ := (prefix_takeWhile _ _ _).mp onLine
    rw [List.drop_left] at named
    refine ⟨?_, inhabited, fun member => ?_⟩
    · rw [List.append_assoc]
      exact (List.prefix_append_right_inj opener).mpr named
    · simpa using plain newline (List.mem_append_left _ member)

theorem tagAtHead?_eq_some (text name : List Char) : tagAtHead? text = some name ↔ StandsFirst text name := by
  unfold tagAtHead? startsWith
  by_cases opens : opener <+: text
  · rw [if_pos (List.isPrefixOf_iff_prefix.mpr opens), nameIn?_eq_some]
    constructor
    · rintro ⟨⟨inhabited, named⟩, shortest⟩
      refine ⟨(stands_iff text name).mpr ⟨opens, inhabited, named⟩, fun other stands => ?_⟩
      have ⟨_, otherInhabited, otherNamed⟩ := (stands_iff text other).mp stands
      exact shortest other otherInhabited otherNamed
    · rintro ⟨stands, shortest⟩
      have ⟨_, inhabited, named⟩ := (stands_iff text name).mp stands
      exact ⟨⟨inhabited, named⟩, fun other otherInhabited otherNamed =>
        shortest other ((stands_iff text other).mpr ⟨opens, otherInhabited, otherNamed⟩)⟩
  · rw [if_neg (mt List.isPrefixOf_iff_prefix.mp opens)]
    exact iff_of_false (fun found => nomatch found) fun first => opens ((stands_iff text name).mp first.stands).1

theorem tagAtHead?_eq_none (text : List Char) : tagAtHead? text = none ↔ ∀ name, ¬ Stands text name := by
  constructor
  · intro absent name stands
    have ⟨opens, inhabited, named⟩ := (stands_iff text name).mp stands
    have found := nameIn?_isSome _ name inhabited named
    rw [tagAtHead?, startsWith, if_pos (List.isPrefixOf_iff_prefix.mpr opens)] at absent
    rw [absent] at found
    cases found
  · intro nowhere
    refine Option.eq_none_iff_forall_ne_some.mpr fun name found => ?_
    exact nowhere name ((tagAtHead?_eq_some text name).mp found).stands

end Names

section Places

theorem firstTag?_cases (text : List Char) (position : Nat) :
    (∃ before later name, text = before ++ later ∧ StandsFirst later name ∧
      (∀ place < before.length, ∀ other, ¬ Stands (text.drop place) other) ∧
      firstTag? text position = some ⟨name, position + before.length, position + before.length + tagLength name⟩) ∨
    (∀ place name, ¬ Stands (text.drop place) name) ∧ firstTag? text position = none := by
  have empty (name : List Char) : ¬ Stands [] name := fun stands => by
    have spelled := List.prefix_nil.mp stands.spelled
    simp [opener] at spelled
  induction text generalizing position with
  | nil => exact .inr ⟨fun place name => by rw [List.drop_nil]; exact empty name, rfl⟩
  | cons c rest ih =>
      unfold firstTag?
      cases found : tagAtHead? (c :: rest) with
      | some name =>
          have first := (tagAtHead?_eq_some _ _).mp found
          exact .inl ⟨[], c :: rest, name, rfl, first, fun place below => absurd below (Nat.not_lt_zero place), rfl⟩
      | none =>
          have here := (tagAtHead?_eq_none _).mp found
          rcases ih (position + 1) with ⟨before, later, name, rfl, first, nowhere, spotted⟩ | ⟨nowhere, spotted⟩
          · refine .inl ⟨c :: before, later, name, rfl, first, fun place below => ?_, ?_⟩
            · cases place with
              | zero => exact here
              | succ place => exact nowhere place (Nat.lt_of_succ_lt_succ below)
            · simp only [spotted, List.length_cons, Option.some.injEq, Tag.mk.injEq, true_and]
              omega
          · refine .inr ⟨fun place => ?_, spotted⟩
            cases place with
            | zero => exact here
            | succ place => exact nowhere place

end Places

section Scanning

theorem firstTag?_skips (text : List Char) (position : Nat) (parts : List Char × List Char)
    (found : splitBefore? opener text = some parts) :
    firstTag? text position = firstTag? parts.2 (position + parts.1.length) := by
  induction text generalizing position parts with
  | nil => cases found
  | cons c rest ih =>
      unfold splitBefore? at found
      split at found
      · cases found
        rfl
      · rename_i elsewhere
        obtain ⟨inner, split, rfl⟩ := Option.map_eq_some_iff.mp found
        have absent : tagAtHead? (c :: rest) = none := if_neg elsewhere
        simp only [firstTag?, absent, List.length_cons]
        rw [ih (position + 1) inner split, Nat.add_right_comm, Nat.add_assoc]

theorem firstTag?_unopened (text : List Char) (position : Nat) (unopened : splitBefore? opener text = none) :
    firstTag? text position = none := by
  induction text generalizing position with
  | nil => rfl
  | cons c rest ih =>
      unfold splitBefore? at unopened
      split at unopened
      · cases unopened
      · rename_i elsewhere
        have absent : tagAtHead? (c :: rest) = none := if_neg elsewhere
        simp only [firstTag?, absent]
        exact ih (position + 1) (Option.map_eq_none_iff.mp unopened)

theorem scanFrom_eq (text : List Char) (position : Nat) : scanFrom text position = firstTag? text position := by
  fun_induction scanFrom text position with
  | case1 text position unopened => exact (firstTag?_unopened text position unopened).symm
  | case2 text position before later found name named =>
      have ⟨_, stands⟩ := splitBefore_append opener text _ found
      have opens : startsWith opener later = true := List.isPrefixOf_iff_prefix.mpr stands
      rw [firstTag?_skips text position _ found]
      cases later with
      | nil => cases opens
      | cons c rest => rw [firstTag?, tagAtHead?, if_pos opens, named]
  | case3 text position before later found unnamed ih =>
      have ⟨_, stands⟩ := splitBefore_append opener text _ found
      have opens : startsWith opener later = true := List.isPrefixOf_iff_prefix.mpr stands
      rw [firstTag?_skips text position _ found, ih]
      cases later with
      | nil => cases opens
      | cons c rest => rw [firstTag?, tagAtHead?, if_pos opens, unnamed, List.drop_one, List.tail_cons]

end Scanning

section Matching

theorem nameIn?_cons (first : Char) (line : List Char) :
    nameIn? (first :: line) = if startsWith closer line then some [first] else (nameIn? line).map (first :: ·) := by
  cases line with
  | nil => rfl
  | cons c rest =>
      rw [nameIn?, splitBefore?]
      split
      · rfl
      · rw [nameIn?, Option.map_map, Option.map_map]
        rfl

-- The first run that a closer follows is the name on the line.
theorem first_closed_run (accepts : Char → Bool) (closes : ∀ c ∈ closer, accepts c = true) (text : List Char) :
    ((Piece.runs accepts text).findSome? fun run => if startsWith closer (text.drop run.length) then some run else none) =
      nameIn? (text.takeWhile accepts) := by
  induction text with
  | nil => rfl
  | cons c rest ih =>
      rw [Piece.runs, List.takeWhile_cons]
      cases accepts c with
      | false => rfl
      | true =>
          have alike : startsWith closer (rest.takeWhile accepts) = startsWith closer rest := by
            rw [Bool.eq_iff_iff, startsWith, startsWith, List.isPrefixOf_iff_prefix, List.isPrefixOf_iff_prefix,
              prefix_takeWhile]
            exact and_iff_left closes
          have later : ((Piece.runs accepts rest).map (c :: ·)).findSome? (fun run =>
              if startsWith closer ((c :: rest).drop run.length) then some run else none) =
                (nameIn? (rest.takeWhile accepts)).map (c :: ·) := by
            rw [← ih, List.findSome?_map, List.map_findSome?]
            refine congrArg (fun pick => List.findSome? pick _) (funext fun run => ?_)
            simp only [Function.comp_apply, List.length_cons, List.drop_succ_cons]
            split <;> rfl
          rw [if_pos rfl, if_pos rfl, nameIn?_cons, alike, List.findSome?_cons, later, List.length_singleton, List.drop_one,
            List.tail_cons]
          cases startsWith closer rest <;> rfl

theorem matchesAtHead_tagPattern (text : List Char) :
    (matchesAtHead tagPattern text).head? = (tagAtHead? text).map fun name => [opener, name, closer] := by
  have closing (rest run : List Char) : (matchesAtHead [.spelled closer] (rest.drop run.length)).head? =
      if startsWith closer (rest.drop run.length) then some [closer] else none := by
    rw [matchesAtHead, Piece.tries]
    split <;> rfl
  rw [tagAtHead?, tagPattern, matchesAtHead, Piece.tries]
  split
  · rw [List.flatMap_singleton, List.head?_map, matchesAtHead, Piece.tries, List.head?_flatMap,
      ← first_closed_run _ (by simp [closer, newline]), List.map_findSome?, List.map_findSome?]
    refine congrArg (fun pick => List.findSome? pick _) (funext fun run => ?_)
    simp only [Function.comp_apply, List.head?_map, closing]
    split <;> rfl
  · rfl

theorem leftmostMatch?_tagPattern (text : List Char) (position : Nat) : leftmostMatch? tagPattern text position =
    (firstTag? text position).map fun tag => (tag.start, [opener, tag.name, closer]) := by
  induction text generalizing position with
  | nil => rfl
  | cons c rest ih =>
      rw [leftmostMatch?, matchesAtHead_tagPattern, ih, firstTag?]
      cases tagAtHead? (c :: rest) <;> rfl

end Matching

theorem Leftmost.unique (text : List Char) (start : Nat) (tag other : Tag) (first : Leftmost text start tag)
    (second : Leftmost text start other) : tag = other := by
  have place : tag.start = other.start := Nat.le_antisymm
    (first.least _ second.behind _ second.stands.stands) (second.least _ first.behind _ first.stands.stands)
  have name : tag.name = other.name := Option.some.inj <|
    ((tagAtHead?_eq_some _ _).mpr first.stands).symm.trans (place ▸ (tagAtHead?_eq_some _ _).mpr second.stands)
  have stop := first.stop
  rw [place, name, ← second.stop] at stop
  cases tag
  cases other
  cases place
  cases name
  cases stop
  rfl

theorem findTag_cases (text : List Char) (start : Nat) :
    (∃ tag, Leftmost text start tag ∧ findTag text start = some tag) ∨
    (∀ position, start ≤ position → ∀ name, ¬ Stands (text.drop position) name) ∧ findTag text start = none := by
  rcases firstTag?_cases (text.drop start) start with ⟨before, later, name, split, first, nowhere, found⟩ | ⟨nowhere, found⟩
  · refine .inl ⟨_, ⟨Nat.le_add_right _ _, ?_, ?_, ?_⟩, found⟩
    · rw [← List.drop_drop, split, List.drop_left]
      exact first
    · simp only [tagLength, List.length_append]
    · intro position behind other stands
      obtain ⟨place, rfl⟩ := Nat.exists_eq_add_of_le behind
      rw [← List.drop_drop] at stands
      exact Nat.add_le_add_left (Nat.not_lt.mp fun below => nowhere place below other stands) start
  · refine .inr ⟨fun position behind name stands => ?_, found⟩
    obtain ⟨place, rfl⟩ := Nat.exists_eq_add_of_le behind
    rw [← List.drop_drop] at stands
    exact nowhere place name stands

-- In every text, from every position on. A scanner that goes from opener to opener, the pattern, and the least place at
-- which a tag stands agree, and nothing is found exactly when no tag stands anywhere behind the position.
theorem findTag_leftmost_lazy (text : List Char) (start : Nat) :
    findTag text start = scanFrom (text.drop start) start ∧
    leftmostMatch? tagPattern (text.drop start) start =
      (findTag text start).map (fun tag => (tag.start, [opener, tag.name, closer])) ∧
    (∀ tag, findTag text start = some tag ↔ Leftmost text start tag) ∧
    (findTag text start = none ↔ ∀ position, start ≤ position → ∀ name, ¬ Stands (text.drop position) name) := by
  refine ⟨(scanFrom_eq _ _).symm, leftmostMatch?_tagPattern _ _, fun tag => ?_, ?_⟩
  · rcases findTag_cases text start with ⟨found, first, same⟩ | ⟨nowhere, same⟩
    · rw [same, Option.some.injEq]
      exact ⟨fun equal => equal ▸ first, fun other => first.unique text start found tag other⟩
    · rw [same]
      exact iff_of_false (fun found => nomatch found) fun other => nowhere _ other.behind _ other.stands.stands
  · rcases findTag_cases text start with ⟨found, first, same⟩ | ⟨nowhere, same⟩
    · rw [same]
      exact iff_of_false (fun absent => nomatch absent) fun nowhere => nowhere _ first.behind _ first.stands.stands
    · exact iff_of_true same nowhere

-- The name begins with a space, goes on over an opener, and ends at the first closer.
example : findTag "`\x7b( x\n`\x7b(  é`\x7b( )\x7d` )\x7d`".toList 0 = some ⟨" é`\x7b(".toList, 6, 19⟩ := by decide

end ClassProgression.Markup
