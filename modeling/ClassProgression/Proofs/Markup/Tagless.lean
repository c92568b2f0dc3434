import ClassProgression.Proofs.Markup.LineByLine
import ClassProgression.Proofs.Markup.Pattern

namespace ClassProgression.Markup

open Text

-- Nothing in a value can be a part of a tag, or can go together with what stands beside it.
structure Inert (value : List Char) : Prop where
  inhabited : value ≠ []
  plain : ∀ c ∈ value, c ∉ ['\x60', '\x7b', '(', ')', '\x7d']
  head : value.head? ≠ some ' '
  last : value.getLast? ≠ some ' '

structure Scope.Inert (scope : Scope) : Prop where
  className : Markup.Inert scope.className.toList
  terms : ∀ name value, scope.terms.get? name = some value → Markup.Inert value.toList

-- No closer belongs to any opener.
def Tagless (text : List Char) : Prop :=
  ∀ earlier later, text = earlier ++ opener ++ later → nameIn? (later.takeWhile (· ≠ newline)) = none

-- Nor can one come to belong to it, whatever is written behind: the lines of all openers are finished.
structure Shut (text : List Char) : Prop where
  tagless : Tagless text
  finished : ∀ earlier later, text = earlier ++ opener ++ later → newline ∈ later

-- No opener begins at the end of a text, and none ends at its beginning.
def EndsClear (text : List Char) : Prop := ∀ c, text.getLast? = some c → c ∉ opener.dropLast

def StartsClear (text : List Char) : Prop := ∀ c, text.head? = some c → c ∉ opener.tail

section Openers

theorem takeWhile_finished (text rest : List Char) (finished : newline ∈ text) :
    (text ++ rest).takeWhile (· ≠ newline) = text.takeWhile (· ≠ newline) := by
  obtain ⟨line, more, rfl, _⟩ := List.eq_append_cons_of_mem finished
  rw [List.append_assoc, List.cons_append, takeWhile_newline, takeWhile_newline]

-- An opener in two texts put together stands in one of them, or reaches from the one into the other.
theorem opener_cases (left right earlier later : List Char) (whole : left ++ right = earlier ++ opener ++ later) :
    (∃ between, left = earlier ++ opener ++ between ∧ later = between ++ right) ∨
    (∃ between, right = between ++ opener ++ later) ∨
    ((∃ c, left.getLast? = some c ∧ c ∈ opener.dropLast) ∧ ∃ c, right.head? = some c ∧ c ∈ opener.tail) := by
  rcases List.append_eq_append_iff.mp whole with ⟨after, upTo, rfl⟩ | ⟨between, rfl, rfl⟩
  · rcases List.append_eq_append_iff.mp upTo with ⟨start, rfl, split⟩ | ⟨before, _, rfl⟩
    · by_cases first : start = []
      · subst first
        rw [List.nil_append] at split
        exact .inr (.inl ⟨[], by rw [split]; rfl⟩)
      · by_cases last : after = []
        · subst last
          rw [List.append_nil] at split
          exact .inl ⟨[], by rw [split, List.append_nil], rfl⟩
        · refine .inr (.inr ⟨⟨start.getLast first, ?_, ?_⟩, after.head last, ?_, ?_⟩)
          · rw [List.getLast?_append_of_ne_nil _ first, List.getLast?_eq_some_getLast first]
          · rw [split, List.dropLast_append_of_ne_nil last]
            exact List.mem_append_left _ (List.getLast_mem first)
          · rw [List.head?_append_of_ne_nil _ last, List.head?_eq_some_head last]
          · rw [split, List.tail_append_of_ne_nil first]
            exact List.mem_append_right _ (List.head_mem last)
    · exact .inr (.inl ⟨before, rfl⟩)
  · exact .inl ⟨between, rfl, rfl⟩

theorem findTag_eq_none (text : List Char) : findTag text 0 = none ↔ Tagless text := by
  have nowhere : findTag text 0 = none ↔ ∀ position name, ¬ Stands (text.drop position) name := by
    rcases findTag_cases text 0 with ⟨tag, first, found⟩ | ⟨absent, found⟩
    · rw [found]
      exact iff_of_false (fun absent => nomatch absent) fun absent => absent _ _ first.stands.stands
    · exact iff_of_true found fun position => absent position (Nat.zero_le position)
  rw [nowhere]
  constructor
  · rintro absent earlier later rfl
    refine Option.eq_none_iff_forall_ne_some.mpr fun name found => absent earlier.length name ?_
    obtain ⟨⟨inhabited, named⟩, -⟩ := nameIn?_spec _ name found
    rw [List.append_assoc, List.drop_left]
    exact (stands_iff _ name).mpr ⟨List.prefix_append _ _, inhabited, by rwa [List.drop_left]⟩
  · intro tagless position name stands
    obtain ⟨⟨later, split⟩, inhabited, named⟩ := (stands_iff _ name).mp stands
    have whole : text = text.take position ++ opener ++ later := by
      rw [List.append_assoc, split, List.take_append_drop]
    have closed := nameIn?_isSome _ name inhabited named
    rw [← split, List.drop_left, tagless _ later whole] at closed
    cases closed

end Openers

section Seams

variable (left right : List Char) (apart : EndsClear left ∨ StartsClear right)
include apart

theorem opener_apart (earlier later : List Char) (whole : left ++ right = earlier ++ opener ++ later) :
    (∃ between, left = earlier ++ opener ++ between ∧ later = between ++ right) ∨
      ∃ between, right = between ++ opener ++ later := by
  rcases opener_cases left right earlier later whole with inLeft | inRight | ⟨⟨c, last, ends⟩, d, head, starts⟩
  · exact .inl inLeft
  · exact .inr inRight
  · exact apart.elim (fun clear => absurd ends (clear c last)) fun clear => absurd starts (clear d head)

theorem Tagless.append (shut : Shut left) (tagless : Tagless right) : Tagless (left ++ right) := by
  intro earlier later whole
  rcases opener_apart left right apart earlier later whole with ⟨between, split, rfl⟩ | ⟨between, split⟩
  · rw [takeWhile_finished between right (shut.finished earlier between split)]
    exact shut.tagless earlier between split
  · exact tagless between later split

theorem Shut.append (shut : Shut left) (rightShut : Shut right) : Shut (left ++ right) where
  tagless := .append left right apart shut rightShut.tagless
  finished earlier later whole := by
    rcases opener_apart left right apart earlier later whole with ⟨between, split, rfl⟩ | ⟨between, split⟩
    · exact List.mem_append_left right (shut.finished earlier between split)
    · exact rightShut.finished between later split

end Seams

section Steps

theorem Shut.of_plain (text : List Char) (plain : '\x60' ∉ text) : Shut text := by
  have unopened (earlier later : List Char) : text ≠ earlier ++ opener ++ later := by
    rintro rfl
    exact plain (List.mem_append_left _ (List.mem_append_right _ (by decide)))
  exact ⟨fun earlier later split => absurd split (unopened earlier later),
    fun earlier later split => absurd split (unopened earlier later)⟩

-- A reader passes over an opener only where no closer belongs to it, and what is passed over on the tag's own line
-- would have the tag's closer.
theorem FirstTag.shut (rest before name after : List Char) (tag : FirstTag rest before name after) : Shut before := by
  obtain ⟨inLine, least⟩ : newline ∉ name ∧
      ∀ position other, Stands (rest.drop position) other → before.length ≤ position := by
    rcases findTag_cases rest 0 with ⟨found, first, same⟩ | ⟨_, same⟩
    · cases tag.first.symm.trans same
      exact ⟨first.stands.stands.inLine, fun position => first.least position (Nat.zero_le position)⟩
    · cases tag.first.symm.trans same
  have noneBefore (earlier later other : List Char) (split : before = earlier ++ opener ++ later) :
      ¬ Stands (opener ++ (later ++ (opener ++ name ++ closer) ++ after)) other := by
    intro stands
    have place : rest.drop earlier.length = opener ++ (later ++ (opener ++ name ++ closer) ++ after) := by
      rw [tag.splits, split]
      simp only [List.append_assoc, List.drop_left]
    have below := least earlier.length other (place ▸ stands)
    rw [split] at below
    simp [opener] at below
  have finished : ∀ earlier later, before = earlier ++ opener ++ later → newline ∈ later := by
    intro earlier later split
    by_contra plain
    refine noneBefore earlier later (later ++ opener ++ name) split ⟨⟨after, by simp only [List.append_assoc]⟩, ?_, ?_⟩
    · simp [opener]
    · simp only [List.mem_append, not_or]
      exact ⟨⟨plain, by decide⟩, inLine⟩
  refine ⟨fun earlier later split => Option.eq_none_iff_forall_ne_some.mpr fun other found => ?_, finished⟩
  obtain ⟨⟨inhabited, named⟩, -⟩ := nameIn?_spec _ other found
  refine noneBefore earlier later other split ((stands_iff _ other).mpr ⟨List.prefix_append _ _, inhabited, ?_⟩)
  rwa [List.drop_left, List.append_assoc, takeWhile_finished later _ (finished earlier later split)]

theorem Shut.above (kept line : List Char) (shut : Shut (kept ++ newline :: line)) :
    Tagless kept ∧ Shut (kept ++ [newline]) := by
  have tagless : Tagless kept := by
    rintro earlier later rfl
    have unnamed := shut.tagless earlier (later ++ newline :: line) (by simp)
    rwa [takeWhile_newline] at unnamed
  have clear : StartsClear [newline] := by
    intro c first
    cases first
    decide
  have inKept (earlier later : List Char) (whole : kept ++ [newline] = earlier ++ opener ++ later) :
      ∃ between, kept = earlier ++ opener ++ between ∧ later = between ++ [newline] := by
    rcases opener_apart kept [newline] (.inr clear) earlier later whole with inKept | ⟨between, split⟩
    · exact inKept
    · have opened : '\x60' ∈ [newline] := split ▸ List.mem_append_left _ (List.mem_append_right _ (by decide))
      exact absurd opened (by decide)
  refine ⟨tagless, ⟨fun earlier later whole => ?_, fun earlier later whole => ?_⟩⟩
  · obtain ⟨between, split, rfl⟩ := inKept earlier later whole
    rw [takeWhile_newline]
    exact tagless earlier between split
  · obtain ⟨between, _, rfl⟩ := inKept earlier later whole
    exact List.mem_append_right between List.mem_cons_self

namespace Inert

variable (value : List Char) (inert : Inert value)
include inert

theorem shut : Shut value := .of_plain value fun member => inert.plain _ member (by decide)

theorem startsClear : StartsClear value := by
  intro c first inOpener
  have plain := inert.plain c (List.mem_of_head? first)
  have notSpace : c ≠ ' ' := fun same => inert.head (same ▸ first)
  simp only [opener, List.tail_cons, List.mem_cons, List.not_mem_nil, or_false] at inOpener plain
  grind

theorem endsClear (text : List Char) : EndsClear (text ++ value) := by
  intro c last inOpener
  rw [List.getLast?_append_of_ne_nil _ inert.inhabited] at last
  refine inert.plain c (List.mem_of_getLast? last) ?_
  simp only [opener, List.dropLast, List.mem_cons, List.not_mem_nil, or_false] at inOpener ⊢
  grind

end Inert

end Steps

section Values

theorem phrase_ends (levels : List Level) (text : String) (phrased : Level.phrase levels = .ok text) :
    ∃ (level : Level) (middle : String), text = level.ordinal ++ middle ++ " level" := by
  cases levels with
  | nil => cases phrased
  | cons level rest =>
      rw [Level.phrase, List.map_cons] at phrased
      generalize rest.map Level.ordinal = more at phrased
      refine ⟨level, ?_⟩
      rcases more with _ | ⟨second, _ | ⟨third, _ | ⟨fourth, others⟩⟩⟩
      · exact ⟨"", by rw [← Except.ok.inj phrased, String.append_empty]⟩
      · refine ⟨" level and again at " ++ second, ?_⟩
        rw [← Except.ok.inj phrased]
        simp only [String.append_assoc]
      · refine ⟨" level and again at " ++ second ++ " and " ++ third, ?_⟩
        rw [← Except.ok.inj phrased]
        simp only [String.append_assoc]
      · refine ⟨" level and again at " ++ ", ".intercalate (second :: third :: fourth :: others).dropLast ++ ", and " ++
          (second :: third :: fourth :: others).getLastD "", ?_⟩
        rw [← Except.ok.inj phrased]
        simp only [String.append_assoc]

theorem ordinal_head (level : Level) (text : List Char) : (level.ordinal.toList ++ text).head? ≠ some ' ' := by
  intro head
  rw [Level.ordinal, Nat.repr_eq_ofList_toDigits, String.toList_append, String.toList_ofList, List.append_assoc,
    List.head?_append_of_ne_nil _ Nat.toDigits_ne_nil] at head
  exact absurd (Nat.isDigit_of_mem_toDigits (by decide) (by decide) (List.mem_of_head? head)) (by decide)

theorem phrase_inert (levels : List Level) (text : String) (phrased : Level.phrase levels = .ok text) :
    Inert text.toList := by
  have worded := phrase_worded levels text phrased
  obtain ⟨level, middle, rfl⟩ := phrase_ends levels text phrased
  refine ⟨?_, fun c member special => ?_, ?_, ?_⟩
  · simp
  · have letter := worded c member
    simp only [List.mem_cons, List.not_mem_nil, or_false] at special
    rcases special with rfl | rfl | rfl | rfl | rfl <;> exact absurd letter (by decide)
  · rw [String.toList_append, String.toList_append, List.append_assoc]
    exact ordinal_head level _
  · rw [String.toList_append, List.getLast?_append_of_ne_nil _ (by decide)]
    decide

theorem Scope.Inert.value (scope : Scope) (inert : scope.Inert) (pending later : List Level) (visit : Visit)
    (resolves : Resolves scope pending visit later) (value : List Char) (put : visit.resolution = .replace value) :
    Markup.Inert value := by
  cases resolves with
  | className => cases put; exact inert.className
  | term _ name text held => cases put; exact inert.terms name text held
  | allLevels _ text phrased => cases put; exact phrase_inert _ text phrased
  | nextLevel _ _ text phrased => cases put; exact phrase_inert _ text phrased
  | remainingLevels _ text _ phrased => cases put; exact phrase_inert _ text phrased
  | gone => cases put

end Values

section Runs

-- What is written goes together with whatever is left, or nothing is left.
def Sealed (out rest : List Char) : Prop := (Shut out ∧ EndsClear out) ∨ rest = [] ∧ Tagless out

theorem Sealed.start (template : List Char) : Sealed [] template := by
  refine .inl ⟨.of_plain [] List.not_mem_nil, fun c last => ?_⟩
  cases last

variable (out rest before name after : List Char) (tag : FirstTag rest before name after) (sealed : Sealed out rest)
include tag sealed

theorem Sealed.shut_before : Shut (out ++ before) := by
  rcases sealed with ⟨shut, ends⟩ | ⟨rfl, _⟩
  · exact shut.append _ _ (.inl ends) (tag.shut rest before name after)
  · exact absurd tag.length_lt (Nat.not_lt_zero _)

theorem Sealed.replaced (value : List Char) (inert : Inert value) : Sealed (out ++ before ++ value) after :=
  .inl ⟨(Sealed.shut_before out rest before name after tag sealed).append _ _ (.inr inert.startsClear) inert.shut,
    Inert.endsClear value inert (out ++ before)⟩

theorem Sealed.removed (upper lower : List Char) (above below : Bool)
    (upperCut : LastLineCut (out ++ before) upper above) (lowerCut : FirstLineCut after lower below) :
    Sealed (upper ++ if above && below then [newline] else []) lower := by
  have shut := Sealed.shut_before out rest before name after tag sealed
  generalize out ++ before = passed at upperCut shut
  cases upperCut with
  | whole _ plain => exact .start lower
  | cut upper line plain =>
      obtain ⟨tagless, shutAbove⟩ := shut.above
      cases lowerCut with
      | whole _ plain => exact .inr ⟨rfl, (List.append_nil upper).symm ▸ tagless⟩
      | cut next lower plain =>
          refine .inl ⟨shutAbove, fun c last => ?_⟩
          obtain rfl : newline = c := Option.some.inj (List.getLast?_concat.symm.trans last)
          decide

end Runs

theorem Streams.tagless (scope : Scope) (inert : scope.Inert) (out rest : List Char) (pending : List Level) (text : String)
    (result : Except TagFault.Kind String) (streams : Streams scope out rest pending result) (sealed : Sealed out rest)
    (succeeds : result = .ok text) : Tagless text.toList := by
  induction streams with
  | done out rest pending noTag =>
      cases succeeds
      rw [String.toList_ofList]
      rcases sealed with ⟨shut, ends⟩ | ⟨rfl, tagless⟩
      · exact .append out rest (.inl ends) shut ((findTag_eq_none rest).mp noTag)
      · rwa [List.append_nil]
  | replaced out rest before name after value pending later line result tag resolved _ ih =>
      have resolves := resolve_resolves scope pending later _ _ _ resolved
      have inertValue := inert.value scope pending later _ resolves value rfl
      exact ih (sealed.replaced out rest before name after tag value inertValue) succeeds
  | removed out rest before name after upper lower above below pending later line result tag resolved
      upperCut lowerCut _ ih =>
      exact ih (sealed.removed out rest before name after tag upper lower above below upperCut lowerCut) succeeds
  | failed => cases succeeds

theorem no_tag_remains (scope : Scope) (template result : String) (inert : scope.Inert)
    (filled : substitute scope template = .ok result) :
    findTag result.toList 0 = none ∧ ∀ other : Scope, substitute other result = .ok result := by
  have streams := streams_of_fillFrom scope [] template.toList scope.levels
  have tagless : Tagless result.toList := by
    refine streams.tagless scope inert _ _ _ result _ (.start _) ?_
    exact (substitute_outcome scope template).symm.trans (congrArg (Except.mapError TagFault.kind) filled)
  have noTag := (findTag_eq_none result.toList).mpr tagless
  refine ⟨noTag, fun other => ?_⟩
  rw [substitute, fill_eq, fillFrom_none other _ 0 _ noTag]
  exact congrArg Except.ok String.ofList_toList

-- The last tag takes out a line that began within a value. An opener and a closer stay behind on lines of their own.
theorem no_tag_around_removed_line :
    let scope : Scope :=
      {className := "Bard", levels := [3], terms := NameMap.ofList [("die", "d8\nd10")], ascending := by decide}
    let template := "`\x7b( \n`\x7b( die )\x7d`, `\x7b( level )\x7d` `\x7b( level )\x7d`\n )\x7d`"
    let result := "`\x7b( \nd8\n )\x7d`"
    scope.Inert ∧ substitute scope template = .ok result ∧ findTag result.toList 0 = none ∧
      substitute {className := "Monk"} result = .ok result := by
  intro scope template result
  have inert : scope.Inert := by
    refine ⟨⟨by decide, by simp [scope], by decide, by decide⟩, fun name value held => ?_⟩
    have entry : (name, value) ∈ [("die", "d8\nd10")] := NameMap.mem_of_lookup name value _ held
    cases List.mem_singleton.mp entry
    exact ⟨by decide, by simp, by decide, by decide⟩
  have filled : substitute scope template = .ok result := by cbv
  obtain ⟨noTag, unchanged⟩ := no_tag_remains scope template result inert filled
  exact ⟨inert, filled, noTag, unchanged _⟩

end ClassProgression.Markup
