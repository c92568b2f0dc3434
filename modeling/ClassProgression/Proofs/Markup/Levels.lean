import ClassProgression.Proofs.Markup.Stream

namespace ClassProgression.Markup

def Request.takes : Request → Bool
  | .nextLevel => true
  | .remainingLevels => true
  | _ => false

def Request.levels (scope : Scope) (pending : List Level) : Request → List Level
  | .nextLevel => pending.take 1
  | .remainingLevels => pending
  | .allLevels => scope.levels
  | _ => []

-- A tag that has been resolved: what it asks for, the levels it is about, and what becomes of it.
structure Visit where
  request : Request
  phrased : List Level
  resolution : Resolution
deriving DecidableEq

-- All that a resolution can be, with the levels that are pending before and after it.
inductive Resolves (scope : Scope) : List Level → Visit → List Level → Prop where
  | className (pending : List Level) :
      Resolves scope pending ⟨.className, [], .replace scope.className.toList⟩ pending
  | term (pending : List Level) (name value : String) (held : scope.terms.get? name = some value) :
      Resolves scope pending ⟨.term name, [], .replace value.toList⟩ pending
  | allLevels (pending : List Level) (text : String) (phrased : Level.phrase scope.levels = .ok text) :
      Resolves scope pending ⟨.allLevels, scope.levels, .replace text.toList⟩ pending
  | nextLevel (level : Level) (rest : List Level) (text : String) (phrased : Level.phrase [level] = .ok text) :
      Resolves scope (level :: rest) ⟨.nextLevel, [level], .replace text.toList⟩ rest
  | remainingLevels (pending : List Level) (text : String) (inhabited : pending ≠ [])
      (phrased : Level.phrase pending = .ok text) :
      Resolves scope pending ⟨.remainingLevels, pending, .replace text.toList⟩ []
  | gone (request : Request) (takes : request.takes = true) : Resolves scope [] ⟨request, [], .deleteLine⟩ []

theorem ok_of_map_ok (f : α → β) (outcome : Except ε α) (result : β) (mapped : outcome.map f = .ok result) :
    ∃ value, outcome = .ok value ∧ f value = result := by
  cases outcome with
  | error fault => cases mapped
  | ok value => exact ⟨value, rfl, Except.ok.inj mapped⟩

theorem resolve_resolves (scope : Scope) (pending later : List Level) (name : String) (line : Nat)
    (resolution : Resolution) (resolved : resolve scope pending name line = .ok (resolution, later)) :
    Resolves scope pending ⟨.ofName name, (Request.ofName name).levels scope pending, resolution⟩ later := by
  unfold resolve at resolved
  generalize Request.ofName name = request at resolved ⊢
  cases request with
  | className =>
      cases resolved
      exact .className pending
  | term other =>
      simp only at resolved
      split at resolved
      · rename_i value held
        cases resolved
        exact .term pending other value held
      · cases resolved
  | allLevels =>
      obtain ⟨text, phrased, same⟩ := ok_of_map_ok _ _ _ resolved
      cases same
      exact .allLevels pending text phrased
  | nextLevel =>
      cases pending with
      | nil =>
          cases resolved
          exact .gone .nextLevel rfl
      | cons level rest =>
          obtain ⟨text, phrased, same⟩ := ok_of_map_ok _ _ _ resolved
          cases same
          exact .nextLevel level later text phrased
  | remainingLevels =>
      cases pending with
      | nil =>
          cases resolved
          exact .gone .remainingLevels rfl
      | cons level rest =>
          obtain ⟨text, phrased, same⟩ := ok_of_map_ok _ _ _ resolved
          cases same
          exact .remainingLevels _ text (List.cons_ne_nil level rest) phrased

namespace Resolves

variable {scope other : Scope} {pending later otherLater : List Level} {visit otherVisit : Visit}

theorem pending_split (resolves : Resolves scope pending visit later) :
    pending = (if visit.request.takes then visit.phrased else []) ++ later := by
  cases resolves with
  | className => rfl
  | term => rfl
  | allLevels => rfl
  | nextLevel => rfl
  | remainingLevels => simp [Request.takes]
  | gone request takes => simp

theorem deletes_iff (resolves : Resolves scope pending visit later) :
    visit.resolution = .deleteLine ↔ visit.request.takes = true ∧ pending = [] := by
  cases resolves with
  | className => simp [Request.takes]
  | term => simp [Request.takes]
  | allLevels => simp [Request.takes]
  | nextLevel => simp
  | remainingLevels _ _ inhabited => simp [inhabited]
  | gone request takes => simp [takes]

theorem later_of_nil (resolves : Resolves scope [] visit later) : later = [] := by
  cases resolves with
  | remainingLevels => rfl
  | _ => rfl

theorem later_of_closes (resolves : Resolves scope pending visit later)
    (closes : visit.resolution = .deleteLine ∨ visit.request = .remainingLevels) : later = [] := by
  cases resolves with
  | remainingLevels => rfl
  | gone => rfl
  | _ => simp at closes

theorem unique (first : Resolves scope pending visit later) (second : Resolves other pending otherVisit otherLater)
    (same : visit.request = otherVisit.request) (takes : visit.request.takes = true) :
    visit = otherVisit ∧ later = otherLater := by
  cases first with
  | className => cases takes
  | term => cases takes
  | allLevels => cases takes
  | nextLevel level rest text phrased =>
      cases second with
      | nextLevel _ _ _ again =>
          cases phrased.symm.trans again
          exact ⟨rfl, rfl⟩
      | _ => cases same
  | remainingLevels _ text inhabited phrased =>
      cases second with
      | remainingLevels _ _ _ again =>
          cases phrased.symm.trans again
          exact ⟨rfl, rfl⟩
      | gone => exact absurd rfl inhabited
      | _ => cases same
  | gone request takes =>
      cases second with
      | gone => cases same; exact ⟨rfl, rfl⟩
      | remainingLevels _ _ inhabited => exact absurd rfl inhabited
      | _ => cases same; cases takes

theorem later_eq (first : Resolves scope pending visit later) (second : Resolves other pending otherVisit otherLater)
    (same : visit.request = otherVisit.request) : otherLater = later := by
  cases takes : visit.request.takes with
  | true => exact (first.unique second same takes).2.symm
  | false =>
      have kept := first.pending_split
      have otherKept := second.pending_split
      rw [← same] at otherKept
      simp only [takes, Bool.false_eq_true, if_false, List.nil_append] at kept otherKept
      exact otherKept.symm.trans kept

end Resolves

-- A run up to some state, with the tags it has visited: the edited text, the position from which the
-- next tag is sought, and the levels that are left.
inductive Logged (scope : Scope) (template : List Char) : List Visit → List Char → Nat → List Level → Prop where
  | start : Logged scope template [] template 0 scope.levels
  | step (log : List Visit) (text : List Char) (position : Nat) (pending later : List Level) (tag : Tag)
      (resolution : Resolution) (logged : Logged scope template log text position pending)
      (found : findTag text position = some tag)
      (resolved : resolve scope pending (String.ofList tag.name) (lineNumber text tag.start) =
        .ok (resolution, later)) :
      Logged scope template
        (log ++ [⟨.ofName (String.ofList tag.name), (Request.ofName (String.ofList tag.name)).levels scope pending,
          resolution⟩])
        (edit text tag resolution).1 (edit text tag resolution).2 later

def levelsTaken (log : List Visit) : List Level := (log.filter (·.request.takes)).flatMap (·.phrased)

-- After such visits no level is left: a level tag has found none, or a tag has taken all the rest.
def Closed (log : List Visit) : Prop :=
  ∃ visit ∈ log, visit.request.takes = true ∧
    (visit.resolution = .deleteLine ∨ visit.request = .remainingLevels)

@[simp]
theorem levelsTaken_concat (log : List Visit) (visit : Visit) :
    levelsTaken (log ++ [visit]) = levelsTaken log ++ if visit.request.takes then visit.phrased else [] := by
  unfold levelsTaken
  rw [List.filter_append, List.flatMap_append]
  by_cases takes : visit.request.takes = true <;> simp [takes]

theorem Logged.visits (scope : Scope) (template : List Char) (log : List Visit) (text : List Char) (position : Nat)
    (pending : List Level) (logged : Logged scope template log text position pending) :
    Visits scope template text position pending := by
  induction logged with
  | start => exact .start
  | step log text position pending later tag resolution _ found resolved ih =>
      exact .step text position pending later tag resolution ih found resolved

theorem phrase_of_ne_nil (levels : List Level) (inhabited : levels ≠ []) : ∃ text, Level.phrase levels = .ok text := by
  match levels with
  | [] => exact absurd rfl inhabited
  | [first] => exact ⟨_, rfl⟩
  | [first, second] => exact ⟨_, rfl⟩
  | [first, second, third] => exact ⟨_, rfl⟩
  | first :: second :: third :: fourth :: more => exact ⟨_, rfl⟩

theorem takes_of_refused (scope : Scope) (pending : List Level) (name : String) (line : Nat) (fault : TagFault)
    (refused : resolve scope pending name line = .error fault) : (Request.ofName name).takes = false := by
  unfold resolve at refused
  generalize Request.ofName name = request at refused ⊢
  cases request with
  | nextLevel =>
      cases pending with
      | nil => cases refused
      | cons level rest => cases refused
  | remainingLevels =>
      cases pending with
      | nil => cases refused
      | cons level rest =>
          obtain ⟨text, phrased⟩ := phrase_of_ne_nil (level :: rest) (List.cons_ne_nil level rest)
          simp only [List.isEmpty_cons, phrased] at refused
          cases refused
  | _ => rfl

theorem FirstTag.unique (rest before name after other otherName otherAfter : List Char)
    (first : FirstTag rest before name after) (second : FirstTag rest other otherName otherAfter) :
    otherName = name ∧ otherAfter = after := by
  have same := Tag.mk.inj (Option.some.inj (first.first.symm.trans second.first))
  have ⟨names, start, _⟩ := same
  subst names
  have parts := first.splits.symm.trans second.splits
  rw [List.append_assoc, List.append_assoc other] at parts
  have ⟨_, behind⟩ := List.append_inj parts start
  exact ⟨rfl, (List.append_cancel_left behind).symm⟩

-- What is left to read after an edit depends on what was left before it only.
theorem edit_drop (text : List Char) (position : Nat) (tag : Tag) (resolution : Resolution)
    (inside : position ≤ text.length) (found : findTag text position = some tag) :
    ∃ before after, FirstTag (text.drop position) before tag.name after ∧
      (edit text tag resolution).1.drop (edit text tag resolution).2 =
        if resolution = .deleteLine then afterFirstLine after else after := by
  have parts : text.take position ++ text.drop position = text := List.take_append_drop position text
  have length : (text.take position).length = position := by simp [inside]
  have shifted := findTag_append (text.take position) (text.drop position)
  rw [parts, length, found] at shifted
  obtain ⟨spotted, here, _⟩ := Option.map_eq_some_iff.mp shifted.symm
  obtain ⟨before, after, first⟩ := FirstTag.of_findTag _ spotted here
  have stands := first.findTag_append (text.take position)
  have stop := first.drop_stop (text.take position)
  rw [parts, length, found] at stands
  rw [parts] at stop
  obtain rfl := Option.some.inj stands
  refine ⟨before, after, first, ?_⟩
  cases resolution with
  | replace value =>
      have ⟨_, ordered, within⟩ := findTag_bounds text position _ found
      have width : (text.take (text.take position ++ before).length ++ value).length =
          (text.take position ++ before).length + value.length := by
        rw [List.length_append, List.length_take_of_le (Nat.le_trans (Nat.le_of_lt ordered) within)]
      rw [if_neg (by simp), edit, ← width, List.drop_left, stop]
  | deleteLine => rw [if_pos rfl, edit, deleteLine_remainder, stop]

namespace Logged

variable {scope : Scope} {template : List Char} {log : List Visit} {text : List Char} {position : Nat}
  {pending : List Level}

theorem levels_split (logged : Logged scope template log text position pending) :
    levelsTaken log ++ pending = scope.levels := by
  induction logged with
  | start => rfl
  | step log text position pending later tag resolution _ found resolved ih =>
      have split := (resolve_resolves scope pending later _ _ resolution resolved).pending_split
      rw [levelsTaken_concat, List.append_assoc, ← split]
      exact ih

theorem nothing_left (logged : Logged scope template log text position pending) (closed : Closed log) :
    pending = [] := by
  induction logged with
  | start => obtain ⟨_, member, _⟩ := closed; cases member
  | step log text position pending later tag resolution _ found resolved ih =>
      have resolves := resolve_resolves scope pending later _ _ resolution resolved
      obtain ⟨visit, member, takes, how⟩ := closed
      rcases List.mem_append.mp member with earlier | last
      · have empty := ih ⟨visit, earlier, takes, how⟩
        subst empty
        exact resolves.later_of_nil
      · cases List.mem_singleton.mp last
        exact resolves.later_of_closes how

theorem split (before after : List Visit) (visit : Visit)
    (logged : Logged scope template (before ++ visit :: after) text position pending) :
    ∃ text position pending later, Logged scope template before text position pending ∧
      Resolves scope pending visit later := by
  generalize whole : before ++ visit :: after = log at logged
  induction logged generalizing after with
  | start => simp at whole
  | step log text position pending later tag resolution logged found resolved ih =>
      rcases List.eq_nil_or_concat after with rfl | ⟨earlier, last, rfl⟩
      · obtain ⟨rfl, same⟩ := List.append_inj' whole rfl
        cases same
        exact ⟨text, position, pending, later, logged, resolve_resolves scope pending later _ _ resolution resolved⟩
      · rw [List.concat_eq_append, ← List.cons_append, ← List.append_assoc] at whole
        exact ih earlier (List.append_inj' whole rfl).1

theorem ends (logged : Logged scope template log text position pending) :
    ∃ log text position pending, Logged scope template log text position pending ∧
      ((findTag text position = none ∧ fill scope template = .ok text) ∨
        ∃ tag fault, findTag text position = some tag ∧
          (Request.ofName (String.ofList tag.name)).takes = false ∧ fill scope template = .error fault) := by
  generalize size : text.length - position = bound
  induction bound using Nat.strongRecOn generalizing log text position pending with
  | ind bound ih =>
      subst size
      have whole := (logged.visits).fillFrom_eq
      cases found : findTag text position with
      | none =>
          rw [fillFrom_none scope text position pending found] at whole
          exact ⟨log, text, position, pending, logged, .inl ⟨found, whole.symm⟩⟩
      | some tag =>
          rw [fillFrom_some scope text position pending tag found] at whole
          cases resolved : resolve scope pending (String.ofList tag.name) (lineNumber text tag.start) with
          | error fault =>
              rw [resolved] at whole
              exact ⟨log, text, position, pending, logged,
                .inr ⟨tag, fault, found, takes_of_refused scope pending _ _ fault resolved, whole.symm⟩⟩
          | ok step =>
              obtain ⟨resolution, later⟩ := step
              exact ih _ (edit_shortens text position tag resolution found)
                (.step log text position pending later tag resolution logged found resolved) rfl

-- Scopes with the same levels visit the same tags, whatever the class and the terms.
theorem alike {other : Scope} {otherLog : List Visit} {otherText : List Char} {otherPosition : Nat}
    {otherLeft : List Level} (levels : other.levels = scope.levels)
    (logged : Logged scope template log text position pending)
    (again : Logged other template otherLog otherText otherPosition otherLeft)
    (length : otherLog.length = log.length) :
    otherText.drop otherPosition = text.drop position ∧ otherLeft = pending ∧
      otherLog.map (·.request) = log.map (·.request) := by
  induction logged generalizing otherLog otherText otherPosition otherLeft with
  | start =>
      cases again with
      | start => exact ⟨rfl, levels, rfl⟩
      | step => simp at length
  | step log text position pending later tag resolution logged found resolved ih =>
      cases again with
      | start => simp at length
      | step otherLog otherText otherPosition otherPending _ otherTag otherResolution again otherFound
          otherResolved =>
          obtain ⟨sameRest, samePending, sameRequests⟩ := ih again (by simpa using length)
          subst samePending
          obtain ⟨before, after, first, drops⟩ :=
            edit_drop text position tag resolution logged.visits.remainder.1 found
          obtain ⟨otherBefore, otherAfter, otherFirst, otherDrops⟩ :=
            edit_drop otherText otherPosition otherTag otherResolution again.visits.remainder.1 otherFound
          rw [sameRest] at otherFirst
          obtain ⟨sameName, rfl⟩ := FirstTag.unique _ _ _ _ _ _ _ first otherFirst
          have resolves := resolve_resolves scope otherPending later _ _ resolution resolved
          have otherResolves := resolve_resolves other otherPending otherLeft _ _ otherResolution otherResolved
          rw [sameName] at otherResolves ⊢
          have deletes : otherResolution = .deleteLine ↔ resolution = .deleteLine :=
            otherResolves.deletes_iff.trans resolves.deletes_iff.symm
          refine ⟨?_, resolves.later_eq otherResolves rfl, ?_⟩
          · rw [drops, otherDrops]
            exact if_congr deletes rfl rfl
          · rw [List.map_append, List.map_append, sameRequests]
            rfl

end Logged

inductive Uses (scope : Scope) : List Visit → List Level → Prop where
  | none : Uses scope [] scope.levels
  | more (visits : List Visit) (visit : Visit) (pending later : List Level) (earlier : Uses scope visits pending)
      (takes : visit.request.takes = true) (resolves : Resolves scope pending visit later) :
      Uses scope (visits ++ [visit]) later

theorem Uses.unique (scope other : Scope) (levels : other.levels = scope.levels) (visits more : List Visit)
    (pending otherPending : List Level) (first : Uses scope visits pending) (second : Uses other more otherPending)
    (same : more.map (·.request) = visits.map (·.request)) : more = visits ∧ otherPending = pending := by
  induction first generalizing more otherPending with
  | none =>
      cases second with
      | none => exact ⟨rfl, levels⟩
      | more => simp at same
  | more visits visit pending later earlier takes resolves ih =>
      cases second with
      | none => simp at same
      | more others otherVisit otherPending otherLater otherEarlier otherTakes otherResolves =>
          rw [List.map_append, List.map_append] at same
          obtain ⟨requests, last⟩ := List.append_inj' same rfl
          obtain ⟨rfl, rfl⟩ := ih others otherPending otherEarlier requests
          have request : visit.request = otherVisit.request := (List.cons.inj last).1.symm
          obtain ⟨rfl, rfl⟩ := resolves.unique otherResolves request takes
          exact ⟨rfl, rfl⟩

inductive Follows (scope : Scope) (before : List Visit) : Visit → Prop where
  | nextLevel (level : Level) (text : String) (unclosed : ¬ Closed before)
      (next : levelsTaken before ++ [level] <+: scope.levels) (phrased : Level.phrase [level] = .ok text) :
      Follows scope before ⟨.nextLevel, [level], .replace text.toList⟩
  | remainingLevels (levels : List Level) (text : String) (unclosed : ¬ Closed before) (inhabited : levels ≠ [])
      (rest : levelsTaken before ++ levels = scope.levels) (phrased : Level.phrase levels = .ok text) :
      Follows scope before ⟨.remainingLevels, levels, .replace text.toList⟩
  | gone (request : Request) (takes : request.takes = true) (nothing : levelsTaken before = scope.levels) :
      Follows scope before ⟨request, [], .deleteLine⟩
  | allLevels (text : String) (phrased : Level.phrase scope.levels = .ok text) :
      Follows scope before ⟨.allLevels, scope.levels, .replace text.toList⟩
  | className : Follows scope before ⟨.className, [], .replace scope.className.toList⟩
  | term (name value : String) (held : scope.terms.get? name = some value) :
      Follows scope before ⟨.term name, [], .replace value.toList⟩

theorem Logged.follows (scope : Scope) (template : List Char) (before after : List Visit) (visit : Visit)
    (text : List Char) (position : Nat) (pending : List Level)
    (logged : Logged scope template (before ++ visit :: after) text position pending) : Follows scope before visit := by
  obtain ⟨_, _, pending, later, earlier, resolves⟩ := logged.split before after visit
  have parts := earlier.levels_split
  have unclosed (inhabited : pending ≠ []) : ¬ Closed before := fun closed => inhabited (earlier.nothing_left closed)
  cases resolves with
  | className => exact .className
  | term _ name value held => exact .term name value held
  | allLevels _ text phrased => exact .allLevels text phrased
  | nextLevel level rest text phrased =>
      refine .nextLevel level text (unclosed (List.cons_ne_nil level later)) ⟨later, ?_⟩ phrased
      rw [← parts, List.append_assoc]
      rfl
  | remainingLevels _ text inhabited phrased =>
      exact .remainingLevels pending text (unclosed inhabited) inhabited parts phrased
  | gone request takes => exact .gone request takes (by rw [← parts, List.append_nil])

theorem Follows.deletes (scope : Scope) (before : List Visit) (visit : Visit) (follows : Follows scope before visit)
    (closed : Closed before) (takes : visit.request.takes = true) : visit.resolution = .deleteLine := by
  cases follows with
  | nextLevel _ _ still => exact absurd closed still
  | remainingLevels _ _ still => exact absurd closed still
  | gone => rfl
  | _ => cases takes

end ClassProgression.Markup
