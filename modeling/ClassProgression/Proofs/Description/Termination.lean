import ClassProgression.Description.Walk
import ClassProgression.Proofs.Catalog.Features
import ClassProgression.Proofs.Description.Descent
import Mathlib.Data.List.Basic

namespace ClassProgression.Description

-- What stands on the stack at any time.
structure Proper (catalog : Catalog) (path : List String) : Prop where
  distinct : path.Nodup
  registered : ∀ slug ∈ path, ∃ feature, catalog.get? slug = some feature

namespace Proper

variable (catalog : Catalog)

theorem nil : Proper catalog [] where
  distinct := .nil
  registered _ member := nomatch member

theorem cons (path : List String) (proper : Proper catalog path) (slug : String) (fresh : slug ∉ path)
    (feature : Feature) (held : catalog.get? slug = some feature) : Proper catalog (slug :: path) where
  distinct := List.nodup_cons.mpr ⟨fresh, proper.distinct⟩
  registered := List.forall_mem_cons.mpr ⟨⟨feature, held⟩, proper.registered⟩

theorem length_le (path : List String) (proper : Proper catalog path) : path.length ≤ catalog.size := by
  have known : path ⊆ catalog.features.keys := by
    intro slug member
    obtain ⟨feature, held⟩ := proper.registered slug member
    exact catalog.features.mem_keys_of_get? slug feature held
  have bound := proper.distinct.length_le_of_subset known
  rwa [NameMap.keys, List.length_map] at bound

theorem full (path : List String) (proper : Proper catalog path) (slug : String) (feature : Feature)
    (held : catalog.get? slug = some feature) (whole : path.length = catalog.size) : slug ∈ path := by
  apply Decidable.byContradiction
  intro fresh
  have longer := (proper.cons catalog path slug fresh feature held).length_le
  rw [List.length_cons, whole] at longer
  exact Nat.not_succ_le_self _ longer

end Proper

structure Call.Proper (catalog : Catalog) (call : Call) : Prop extends Description.Proper catalog call.path where
  shallow : call.depth ≤ catalog.size + 1
  -- At the bottom there is only the call that meets its own slug.
  bottom : call.depth = catalog.size + 1 → call.slug ∈ call.path

-- What a walk comes to from a trail: calls are added to it, and the stack is as before unless there was a fault.
inductive Walked (catalog : Catalog) (start : Trail) : Except Fault α → EStateM.Result Halt Trail α → Prop where
  | ended (value : α) (trail : Trail) (calls : List Call) (each : ∀ call ∈ calls, call.Proper catalog)
      (restored : trail.path = start.path) (added : trail.calls = start.calls ++ calls) :
      Walked catalog start (.ok value) (.ok value trail)
  | failed (cause : Fault) (trail : Trail) (calls : List Call) (each : ∀ call ∈ calls, call.Proper catalog)
      (added : trail.calls = start.calls ++ calls) :
      Walked catalog start (.error cause) (.error (.fault cause) trail)

namespace Walked

variable (catalog : Catalog) (start : Trail)

theorem pure (value : α) : Walked catalog start (.ok value) ((Pure.pure value : Walk α) start) :=
  .ended value start [] (by simp) rfl (by simp)

theorem fault (cause : Fault) : Walked catalog start (.error cause : Except Fault α)
    ((Walk.halt (.fault cause) : Walk α) start) :=
  .failed cause start [] (by simp) (by simp)

theorem attempt (step : Except Fault α) : Walked catalog start step (Walk.attempt step start) := by
  cases step with
  | ok value => exact pure catalog start value
  | error cause => exact fault catalog start cause

theorem extend (middle : Trail) (calls : List Call) (each : ∀ call ∈ calls, call.Proper catalog)
    (restored : middle.path = start.path) (added : middle.calls = start.calls ++ calls)
    (outcome : Except Fault α) (result : EStateM.Result Halt Trail α)
    (walked : Walked catalog middle outcome result) : Walked catalog start outcome result := by
  cases walked with
  | ended value trail later laterEach laterRestored laterAdded =>
      refine .ended value trail (calls ++ later) (List.forall_mem_append.mpr ⟨each, laterEach⟩)
        (laterRestored.trans restored) ?_
      rw [laterAdded, added, List.append_assoc]
  | failed cause trail later laterEach laterAdded =>
      refine .failed cause trail (calls ++ later) (List.forall_mem_append.mpr ⟨each, laterEach⟩) ?_
      rw [laterAdded, added, List.append_assoc]

theorem bind (first : Except Fault α) (next : α → Except Fault β) (step : Walk α) (further : α → Walk β)
    (stepped : Walked catalog start first (step start))
    (continued : ∀ value trail, trail.path = start.path → Walked catalog trail (next value) (further value trail)) :
    Walked catalog start (first >>= next) ((step >>= further) start) := by
  change Walked catalog start (first >>= next) (EStateM.bind step further start)
  unfold EStateM.bind
  generalize step start = result at stepped
  cases stepped with
  | failed cause trail calls each added => exact .failed cause trail calls each added
  | ended value trail calls each restored added =>
      exact extend catalog start trail calls each restored added _ _ (continued value trail restored)

theorem map (f : α → β) (first : Except Fault α) (step : Walk α)
    (stepped : Walked catalog start first (step start)) : Walked catalog start (first.map f) ((f <$> step) start) := by
  change Walked catalog start (first.map f) (EStateM.map f step start)
  unfold EStateM.map
  generalize step start = result at stepped
  cases stepped with
  | failed cause trail calls each added => exact .failed cause trail calls each added
  | ended value trail calls each restored added => exact .ended (f value) trail calls each restored added

theorem mapM (path : List String) (step : String → Except Fault String) (further : String → Walk String)
    (slugs : List String)
    (each : ∀ slug ∈ slugs, ∀ trail, trail.path = path → Walked catalog trail (step slug) (further slug trail)) :
    ∀ trail, trail.path = path → Walked catalog trail (slugs.mapM step) (slugs.mapM further trail) := by
  induction slugs with
  | nil =>
      intro trail _
      exact pure catalog trail []
  | cons slug rest ih =>
      intro trail same
      rw [List.mapM_cons, List.mapM_cons]
      refine bind catalog trail _ _ _ _ (each slug List.mem_cons_self trail same) fun addon middle here => ?_
      have others := ih fun other later => each other (List.mem_cons_of_mem slug later)
      refine bind catalog middle _ _ _ _ (others middle (here.trans same)) fun addons last _ => ?_
      exact pure catalog last (addon :: addons)

theorem enter (slug : String) (outcome : Except Fault α) (body : Walk α)
    (call : Call.Proper catalog ⟨start.path, slug⟩)
    (within : slug ∉ start.path → ∀ trail, trail.path = slug :: start.path →
      Walked catalog trail outcome (body trail)) :
    Walked catalog start (if slug ∈ start.path then .error (.cyclicReference slug) else outcome)
      (Walk.enter slug body start) := by
  have first : ∀ other ∈ [Call.mk start.path slug], other.Proper catalog := List.forall_mem_singleton.mpr call
  unfold Walk.enter
  by_cases visited : slug ∈ start.path
  · rw [if_pos visited, if_pos visited]
    exact .failed _ _ _ first rfl
  · rw [if_neg visited, if_neg visited]
    have walked := within visited ⟨slug :: start.path, start.calls ++ [⟨start.path, slug⟩]⟩ rfl
    generalize body ⟨slug :: start.path, start.calls ++ [⟨start.path, slug⟩]⟩ = result at walked
    cases walked with
    | failed cause trail calls each added =>
        refine .failed cause trail ([⟨start.path, slug⟩] ++ calls) (List.forall_mem_append.mpr ⟨first, each⟩) ?_
        rw [added, List.append_assoc]
    | ended value trail calls each restored added =>
        refine .ended value _ ([⟨start.path, slug⟩] ++ calls) (List.forall_mem_append.mpr ⟨first, each⟩) ?_ ?_
        · rw [restored]
          rfl
        · rw [← List.append_assoc]
          exact added

end Walked

theorem Call.proper (catalog : Catalog) (path : List String) (proper : Description.Proper catalog path)
    (feature : Feature) (held : catalog.get? feature.slug = some feature) : Call.Proper catalog ⟨path, feature.slug⟩ where
  toProper := proper
  shallow := Nat.succ_le_succ (proper.length_le catalog path)
  bottom whole := proper.full catalog path feature.slug feature held (Nat.succ.inj whole)

variable (catalog : Catalog) (subject : Subject)

-- The induction is on how much deeper the walk may go: an open call more on the stack is one less to come.
theorem walk_walked (allowance : Nat) (feature : Feature) (start : Trail) (proper : Proper catalog start.path)
    (held : catalog.get? feature.slug = some feature) (enough : catalog.size < allowance + start.path.length) :
    Walked catalog start
      (if feature.slug ∈ start.path then .error (.cyclicReference feature.slug)
        else describeAt catalog subject (feature.slug :: start.path) feature)
      (walk catalog subject allowance feature start) := by
  induction allowance generalizing feature start with
  | zero =>
      have short := proper.length_le
      omega
  | succ allowance ih =>
      refine Walked.enter catalog start feature.slug _ _ (Call.proper catalog _ proper feature held) ?_
      intro fresh within path
      have inner := proper.cons catalog _ feature.slug fresh feature held
      rw [describeAt_eq]
      refine Walked.bind catalog within _ _ _ _ (Walked.attempt catalog within _) fun own trail restored => ?_
      refine Walked.bind catalog trail _ _ _ _ ?_ fun addons last _ => Walked.pure catalog last (attach own addons)
      refine Walked.mapM catalog _ _ _ _ ?_ trail (restored.trans path)
      intro slug _ middle here
      unfold describeChild
      cases registered : catalog.get? slug with
      | none => exact Walked.fault catalog middle _
      | some child =>
          obtain rfl := catalog.slug_of_get? slug child registered
          have deeper := ih child middle (here ▸ inner) registered (by rw [here, List.length_cons]; omega)
          rw [here] at deeper
          have demoted := Walked.map catalog middle demoteHeadings _ _ deeper
          rwa [apply_ite (Except.map demoteHeadings)] at demoted

-- As many open calls as there are features, and one more, are enough for any description.
theorem describing_ends (feature : Feature) (registered : catalog.get? feature.slug = some feature) (allowance : Nat)
    (enough : catalog.size + 1 ≤ allowance) :
    ∃ trail, (∀ call ∈ trail.calls, call.Proper catalog) ∧
      match describe catalog subject feature with
      | .ok text => walk catalog subject allowance feature {} = .ok text trail ∧ trail.path = []
      | .error cause => walk catalog subject allowance feature {} = .error (.fault cause) trail := by
  have walked : Walked catalog {} (describe catalog subject feature) (walk catalog subject allowance feature {}) := by
    have fromRoot := walk_walked catalog subject allowance feature {} (Proper.nil catalog) registered enough
    rwa [if_neg List.not_mem_nil] at fromRoot
  generalize describe catalog subject feature = outcome at walked
  generalize walk catalog subject allowance feature {} = result at walked
  cases walked with
  | ended text trail calls each restored added =>
      exact ⟨trail, added.symm ▸ each, rfl, restored⟩
  | failed cause trail calls each added =>
      exact ⟨trail, added.symm ▸ each, rfl⟩

-- Two features that refer to each other. Two open calls are not enough to find out.
theorem loop_of_two_ends :
    let subject : Subject := ⟨"fighter", "Fighter"⟩
    let first : Feature := {slug := "a", children := ["b"]}
    let catalog := (Catalog.ofFeatures [first, {slug := "b", children := ["a"]}]).toOption.getD {}
    let calls : List Call := [⟨[], "a"⟩, ⟨["a"], "b"⟩, ⟨["b", "a"], "a"⟩]
    catalog.get? "a" = some first ∧ catalog.size + 1 = 3 ∧
      walk catalog subject 2 first {} = .error .tooDeep ⟨["b", "a"], calls.take 2⟩ ∧
      walk catalog subject 3 first {} = .error (.fault (.cyclicReference "a")) ⟨["b", "a"], calls⟩ ∧
      ∀ call ∈ calls, call.Proper catalog := by
  intro subject first catalog calls
  have held : catalog.get? "a" = some first := by decide +kernel
  have size : catalog.size + 1 = 3 := by decide +kernel
  have short : walk catalog subject 2 first {} = .error .tooDeep ⟨["b", "a"], calls.take 2⟩ := by cbv
  have long : walk catalog subject 3 first {} = .error (.fault (.cyclicReference "a")) ⟨["b", "a"], calls⟩ := by cbv
  have looped : describe catalog subject first = .error (.cyclicReference "a") := by decide +kernel
  obtain ⟨trail, each, found⟩ := describing_ends catalog subject first held 3 (Nat.le_of_eq size)
  rw [looped] at found
  have same := long.symm.trans found
  cases same
  exact ⟨held, size, short, long, each⟩

end ClassProgression.Description
