import ClassProgression.Proofs.Description.Reach

namespace ClassProgression

structure Feature.Alike (className : String) (left right : Feature) : Prop where
  slug : left.slug = right.slug
  template : left.template = right.template
  children : left.children = right.children
  binding : left.binding? className = right.binding? className

namespace Feature.Alike

variable (className : String) (left right : Feature) (alike : left.Alike className right)
include alike

theorem childrenFor : left.childrenFor className = right.childrenFor className := by
  rw [Feature.childrenFor, Feature.childrenFor, alike.binding, alike.children]

theorem scope (displayName : String) :
    Markup.Scope.ofFeature displayName left className = Markup.Scope.ofFeature displayName right className := by
  rw [Markup.Scope.ofFeature, Markup.Scope.ofFeature, alike.binding]

end Feature.Alike

namespace Description

-- What a feature leads to by one edge or more; the feature itself need not be in the catalog.
def Below (catalog : Catalog) (className : String) (feature : Feature) (slug : String) : Prop :=
  ∃ child ∈ feature.childrenFor className, Reaches catalog className child slug

def AgreeAt (left right : Catalog) (className slug : String) : Prop :=
  Option.Rel (Feature.Alike className) (left.get? slug) (right.get? slug)

theorem Below.child (catalog : Catalog) (className : String) (feature : Feature) (slug : String)
    (listed : slug ∈ feature.childrenFor className) : Below catalog className feature slug :=
  ⟨slug, listed, .refl⟩

theorem Below.deeper (catalog : Catalog) (className : String) (feature child : Feature) (slug other : String)
    (listed : slug ∈ feature.childrenFor className) (held : catalog.get? slug = some child)
    (below : Below catalog className child other) : Below catalog className feature other := by
  obtain ⟨next, inChildren, reached⟩ := below
  exact ⟨slug, listed, .head ⟨child, held, inChildren⟩ reached⟩

variable (left right : Catalog) (subject : Subject)

-- One level: the descents below the children are taken to be the same.
theorem describeChild_alike (path : List String) (parent slug : String)
    (agree : AgreeAt left right subject.className slug)
    (inner : ∀ child other, left.get? slug = some child → right.get? slug = some other → slug ∉ path →
      child.Alike subject.className other →
      describeAt left subject (slug :: path) child = describeAt right subject (slug :: path) other) :
    describeChild left subject path parent slug = describeChild right subject path parent slug := by
  rw [describeChild, describeChild]
  unfold AgreeAt at agree
  cases leftHeld : left.get? slug with
  | none =>
      rw [leftHeld] at agree
      cases rightHeld : right.get? slug with
      | none => rfl
      | some other => rw [rightHeld] at agree; cases agree
  | some child =>
      rw [leftHeld] at agree
      cases rightHeld : right.get? slug with
      | none => rw [rightHeld] at agree; cases agree
      | some other =>
          rw [rightHeld] at agree
          cases agree with
          | some alike =>
              by_cases visited : slug ∈ path
              · simp only [if_pos visited]
              · simp only [if_neg visited, inner child other leftHeld rightHeld visited alike]

theorem mapM_alike (step other : String → Except Fault String) (slugs : List String)
    (same : ∀ slug ∈ slugs, step slug = other slug) : slugs.mapM step = slugs.mapM other := by
  induction slugs with
  | nil => rfl
  | cons slug rest ih =>
      rw [List.mapM_cons, List.mapM_cons, same slug List.mem_cons_self,
        ih fun later inRest => same later (List.mem_cons_of_mem slug inRest)]

theorem describeAt_alike (path : List String) (feature other : Feature)
    (alike : feature.Alike subject.className other)
    (agree : ∀ slug, Below left subject.className feature slug → AgreeAt left right subject.className slug) :
    describeAt left subject path feature = describeAt right subject path other := by
  induction path, feature using describeAt.induct left subject generalizing other with
  | case1 path feature ih =>
      have each : ∀ slug ∈ feature.childrenFor subject.className,
          describeChild left subject path feature.slug slug = describeChild right subject path feature.slug slug := by
        intro slug listed
        refine describeChild_alike left right subject path feature.slug slug (agree slug (.child _ _ _ _ listed)) ?_
        intro child next held _ fresh childAlike
        exact ih slug child held fresh next childAlike fun deep below =>
          agree deep (.deeper left _ feature child slug deep listed held below)
      rw [describeAt_eq, describeAt_eq, ← alike.scope, ← alike.template, ← alike.childrenFor, ← alike.slug,
        mapM_alike _ _ _ each]

-- The second feature may differ from the first in its bindings for other classes.
theorem describe_depends_on_reach (feature other : Feature) (alike : feature.Alike subject.className other)
    (agree : ∀ slug, Below left subject.className feature slug → AgreeAt left right subject.className slug) :
    describe left subject feature = describe right subject other := by
  rw [describe, describe, ← alike.slug]
  exact describeAt_alike left right subject [feature.slug] feature other alike agree

-- What a wizard reads below the leaf and a feature that nothing refers to are left out, for a description and for a
-- fault.
theorem leaf_of_another_class :
    let subject : Subject := ⟨"fighter", "Fighter"⟩
    let wizards : NameMap Binding := NameMap.ofList [("wizard", {children := ["stray"]})]
    let leaf : Feature := {slug := "leaf", template := "# Leaf", classes := wizards}
    let root : Feature := {slug := "root", template := "# Root", children := ["leaf"]}
    let broken : Feature := {slug := "broken", classes := NameMap.ofList [("fighter", {children := ["leaf", "lost"]})]}
    let left := (Catalog.ofFeatures [root, broken, leaf, {slug := "stray"}]).toOption.getD {}
    let right := (Catalog.ofFeatures [{leaf with classes := {}}, {root with classes := wizards}]).toOption.getD {}
    (∀ slug, Below left "fighter" root slug ∨ Below left "fighter" broken slug → AgreeAt left right "fighter" slug) ∧
      describe left subject root = .ok "# Root\n## Leaf" ∧
      describe right subject {root with classes := wizards} = .ok "# Root\n## Leaf" ∧
      describe left subject broken = .error (.unknownReference "broken" "lost") ∧
      describe right subject broken = .error (.unknownReference "broken" "lost") := by
  intro subject wizards leaf root broken left right
  have ends : ∀ child ∈ ["leaf", "lost"], ∀ slug, Reaches left "fighter" child slug → slug = child := by
    intro child listed slug reached
    rcases Relation.ReflTransGen.cases_head reached with same | ⟨next, ⟨held, found, further⟩, _⟩
    · exact same.symm
    · have none_below : ∀ child ∈ ["leaf", "lost"],
          ((left.get? child).map fun feature => feature.childrenFor "fighter").getD [] = [] := by decide +kernel
      have nothing := none_below child listed
      rw [found] at nothing
      change held.childrenFor "fighter" = [] at nothing
      rw [nothing] at further
      cases further
  have atLeaf : AgreeAt left right "fighter" "leaf" := by
    have inLeft : left.get? "leaf" = some leaf := by decide +kernel
    have inRight : right.get? "leaf" = some {leaf with classes := {}} := by decide +kernel
    rw [AgreeAt, inLeft, inRight]
    exact .some ⟨rfl, rfl, rfl, by decide +kernel⟩
  have atLost : AgreeAt left right "fighter" "lost" := by
    have inLeft : left.get? "lost" = none := by decide +kernel
    have inRight : right.get? "lost" = none := by decide +kernel
    rw [AgreeAt, inLeft, inRight]
    exact .none
  have agree (feature : Feature) (listed : ∀ child ∈ feature.childrenFor "fighter", child ∈ ["leaf", "lost"])
      (slug : String) (below : Below left "fighter" feature slug) : AgreeAt left right "fighter" slug := by
    obtain ⟨child, inChildren, reached⟩ := below
    have known := listed child inChildren
    rw [ends child known slug reached]
    rcases List.mem_pair.mp known with rfl | rfl
    · exact atLeaf
    · exact atLost
  have belowRoot := agree root (by decide +kernel)
  have belowBroken := agree broken (by decide +kernel)
  have described : describe left subject root = .ok "# Root\n## Leaf" := by decide +kernel
  have failed : describe left subject broken = .error (.unknownReference "broken" "lost") := by decide +kernel
  refine ⟨fun slug below => below.elim (belowRoot slug) (belowBroken slug), described, ?_, failed, ?_⟩
  · have alike : root.Alike "fighter" {root with classes := wizards} := ⟨rfl, rfl, rfl, by decide +kernel⟩
    exact (describe_depends_on_reach left right subject root _ alike belowRoot).symm.trans described
  · exact (describe_depends_on_reach left right subject broken broken ⟨rfl, rfl, rfl, rfl⟩ belowBroken).symm.trans failed

end Description

end ClassProgression
