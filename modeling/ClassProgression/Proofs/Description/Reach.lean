import ClassProgression.Proofs.Catalog.Features
import ClassProgression.Proofs.Description.Descent
import Mathlib.Data.List.Basic
import Mathlib.Logic.Relation

namespace ClassProgression.Description

open Relation

def ownText (subject : Subject) (feature : Feature) : Except TagFault String :=
  Markup.substitute (Markup.Scope.ofFeature subject.displayName feature subject.className) feature.template

variable (catalog : Catalog) (subject : Subject)

-- An edge stands for any number of mentions: a child listed twice is one edge.
def Lists (className : String) (parent child : String) : Prop :=
  ∃ feature, catalog.get? parent = some feature ∧ child ∈ feature.childrenFor className

def Reaches (className : String) : String → String → Prop := ReflTransGen (Lists catalog className)

def Descends (className : String) : String → String → Prop := TransGen (Lists catalog className)

structure Describable (root : String) : Prop where
  filled : ∀ slug feature, Reaches catalog subject.className root slug → catalog.get? slug = some feature →
    ∃ own, ownText subject feature = .ok own
  registered : ∀ parent child, Reaches catalog subject.className root parent →
    Lists catalog subject.className parent child → ∃ feature, catalog.get? child = some feature
  acyclic : ∀ slug, Reaches catalog subject.className root slug → ¬ Descends catalog subject.className slug slug

-- What a fault says is so, of something that the root reaches.
inductive Blames (root : String) : Fault → Prop where
  | cyclic (slug : String) (reached : Reaches catalog subject.className root slug)
      (returns : Descends catalog subject.className slug slug) : Blames root (.cyclicReference slug)
  | unknown (parent child : String) (reached : Reaches catalog subject.className root parent)
      (listed : Lists catalog subject.className parent child) (missing : catalog.get? child = none) :
      Blames root (.unknownReference parent child)
  | tag (slug : String) (feature : Feature) (cause : TagFault)
      (reached : Reaches catalog subject.className root slug) (held : catalog.get? slug = some feature)
      (refused : ownText subject feature = .error cause) : Blames root (.tag cause)

theorem lists_iff (className slug child : String) (feature : Feature) (held : catalog.get? slug = some feature) :
    Lists catalog className slug child ↔ child ∈ feature.childrenFor className := by
  constructor
  · rintro ⟨other, found, listed⟩
    rwa [Option.some.inj (held.symm.trans found)]
  · intro listed
    exact ⟨feature, held, listed⟩

theorem Blames.not_describable (root : String) (fault : Fault) (blames : Blames catalog subject root fault) :
    ¬ Describable catalog subject root := by
  intro describable
  cases blames with
  | cyclic slug reached returns => exact describable.acyclic slug reached returns
  | unknown parent child reached listed missing =>
      obtain ⟨feature, held⟩ := describable.registered parent child reached listed
      rw [missing] at held
      cases held
  | tag slug feature cause reached held refused =>
      obtain ⟨own, filled⟩ := describable.filled slug feature reached held
      rw [refused] at filled
      cases filled

-- The slugs on the way down stay between the root and the feature: this is what makes a slug met
-- again one that comes back to itself.
theorem describeAt_blames (root : String) (path : List String) (feature : Feature) (fault : Fault)
    (held : catalog.get? feature.slug = some feature)
    (reached : Reaches catalog subject.className root feature.slug)
    (onWay : ∀ slug ∈ path, Reaches catalog subject.className root slug ∧
      Reaches catalog subject.className slug feature.slug)
    (failed : describeAt catalog subject path feature = .error fault) : Blames catalog subject root fault := by
  induction path, feature using describeAt.induct catalog subject with
  | case1 path feature ih =>
      rcases describeAt_fault catalog subject path feature fault failed with
        ⟨cause, refused, rfl⟩ | ⟨slug, inChildren, childFailed⟩
      · exact .tag feature.slug feature cause reached held refused
      · have listed := (lists_iff catalog subject.className feature.slug slug feature held).mpr inChildren
        rcases describeChild_fault catalog subject path feature.slug slug fault childFailed with
          ⟨missing, rfl⟩ | ⟨visited, rfl⟩ | ⟨child, registered, fresh, inner⟩
        · exact .unknown feature.slug slug reached listed missing
        · obtain ⟨fromRoot, toFeature⟩ := onWay slug visited
          exact .cyclic slug fromRoot (TransGen.tail' toFeature listed)
        · obtain rfl := catalog.slug_of_get? slug child registered
          refine ih child.slug child registered fresh registered (ReflTransGen.tail reached listed) ?_ inner
          intro other member
          rcases List.mem_cons.mp member with rfl | earlier
          · exact ⟨ReflTransGen.tail reached listed, ReflTransGen.refl⟩
          · obtain ⟨fromRoot, toFeature⟩ := onWay other earlier
            exact ⟨fromRoot, ReflTransGen.tail toFeature listed⟩

theorem descends_iff (className slug target : String) (feature : Feature) (held : catalog.get? slug = some feature) :
    Descends catalog className slug target ↔
      ∃ child ∈ feature.childrenFor className, child = target ∨ Descends catalog className child target := by
  rw [Descends, TransGen.head'_iff]
  refine exists_congr fun child => and_congr (lists_iff catalog className slug child feature held) ?_
  rw [reflTransGen_iff_eq_or_transGen, eq_comm]

-- Nothing below a described feature stands above it, the feature itself included.
theorem describeAt_descends (path : List String) (feature : Feature) (text : String)
    (held : catalog.get? feature.slug = some feature)
    (described : describeAt catalog subject path feature = .ok text) :
    ∀ slug, Descends catalog subject.className feature.slug slug → slug ∉ path := by
  induction path, feature using describeAt.induct catalog subject generalizing text with
  | case1 path feature ih =>
      obtain ⟨own, addons, _, ran, _⟩ := (describeAt_ok catalog subject path feature text).mp described
      intro slug below
      obtain ⟨child, listed, further⟩ := (descends_iff catalog _ _ slug feature held).mp below
      obtain ⟨addon, childDescribed⟩ := mapM_members _ _ addons ran child listed
      obtain ⟨inner, innerText, registered, fresh, innerDescribed, _⟩ := (describeChild_ok ..).mp childDescribed
      rcases further with rfl | deeper
      · exact fresh
      · obtain rfl := catalog.slug_of_get? child inner registered
        have apart := ih inner.slug inner registered fresh innerText registered innerDescribed slug deeper
        exact fun onPath => apart (List.mem_cons_of_mem _ onPath)

theorem describeAt_describable (path : List String) (feature : Feature) (text : String)
    (held : catalog.get? feature.slug = some feature) (onPath : feature.slug ∈ path)
    (described : describeAt catalog subject path feature = .ok text) :
    Describable catalog subject feature.slug := by
  induction path, feature using describeAt.induct catalog subject generalizing text with
  | case1 path feature ih =>
      have apart := describeAt_descends catalog subject path feature text held described
      obtain ⟨own, addons, filled, ran, _⟩ := (describeAt_ok catalog subject path feature text).mp described
      have below : ∀ child ∈ feature.childrenFor subject.className,
          (∃ inner, catalog.get? child = some inner) ∧ Describable catalog subject child := by
        intro child listed
        obtain ⟨addon, childDescribed⟩ := mapM_members _ _ addons ran child listed
        obtain ⟨inner, innerText, registered, fresh, innerDescribed, _⟩ := (describeChild_ok ..).mp childDescribed
        obtain rfl := catalog.slug_of_get? child inner registered
        exact ⟨⟨inner, registered⟩, ih inner.slug inner registered fresh innerText registered
          List.mem_cons_self innerDescribed⟩
      have split : ∀ slug, Reaches catalog subject.className feature.slug slug → slug = feature.slug ∨
          ∃ child ∈ feature.childrenFor subject.className, Reaches catalog subject.className child slug := by
        intro slug reached
        rcases ReflTransGen.cases_head reached with same | ⟨child, listed, further⟩
        · exact .inl same.symm
        · exact .inr ⟨child, (lists_iff catalog _ _ child feature held).mp listed, further⟩
      refine ⟨?_, ?_, ?_⟩
      · intro slug other reached found
        rcases split slug reached with rfl | ⟨child, listed, further⟩
        · rw [← Option.some.inj (held.symm.trans found)]
          exact ⟨own, filled⟩
        · exact (below child listed).2.filled slug other further found
      · intro parent child reached listed
        rcases split parent reached with rfl | ⟨next, inChildren, further⟩
        · exact (below child ((lists_iff catalog _ _ child feature held).mp listed)).1
        · exact (below next inChildren).2.registered parent child further listed
      · intro slug reached returns
        rcases split slug reached with rfl | ⟨child, listed, further⟩
        · exact apart feature.slug returns onPath
        · exact (below child listed).2.acyclic slug further returns

-- A description of a registered feature exists exactly if nothing that the feature reaches stands
-- against it, and a fault names something that does.
theorem describe_succeeds_iff (feature : Feature) (registered : catalog.get? feature.slug = some feature) :
    ((∃ text, describe catalog subject feature = .ok text) ↔ Describable catalog subject feature.slug) ∧
    ∀ fault, describe catalog subject feature = .error fault → Blames catalog subject feature.slug fault := by
  have blamed : ∀ fault, describe catalog subject feature = .error fault →
      Blames catalog subject feature.slug fault := by
    intro fault failed
    refine describeAt_blames catalog subject feature.slug [feature.slug] feature fault registered
      ReflTransGen.refl ?_ failed
    intro slug member
    rw [List.mem_singleton.mp member]
    exact ⟨ReflTransGen.refl, ReflTransGen.refl⟩
  refine ⟨⟨?_, ?_⟩, blamed⟩
  · rintro ⟨text, described⟩
    exact describeAt_describable catalog subject [feature.slug] feature text registered List.mem_cons_self described
  · intro describable
    cases outcome : describe catalog subject feature with
    | ok text => exact ⟨text, rfl⟩
    | error fault => exact ((blamed fault outcome).not_describable catalog subject _ fault describable).elim

-- A feature listed twice and shared by its siblings, and a loop that the root only leads into.
theorem shared_child_and_loop :
    let subject : Subject := ⟨"fighter", "Fighter"⟩
    let root : Feature := {slug := "root", template := "Root", children := ["left", "right", "left"]}
    let shared := (Catalog.ofFeatures [root, {slug := "left", children := ["leaf"]},
      {slug := "right", children := ["leaf"]}, {slug := "leaf", template := "Leaf"}]).toOption.getD {}
    let entry : Feature := {slug := "entry", children := ["a"]}
    let looped := (Catalog.ofFeatures [entry, {slug := "a", children := ["b"]},
      {slug := "b", children := ["a"]}]).toOption.getD {}
    (shared.get? root.slug = some root ∧ Describable shared subject "root") ∧
    looped.get? entry.slug = some entry ∧ describe looped subject entry = .error (.cyclicReference "a") ∧
      Blames looped subject "entry" (.cyclicReference "a") := by
  intro subject root shared entry looped
  have inShared : shared.get? root.slug = some root := by decide +kernel
  have inLooped : looped.get? entry.slug = some entry := by decide +kernel
  have described : describe shared subject root = .ok "Root\n\nLeaf\n\nLeaf\n\nLeaf" := by decide +kernel
  have failed : describe looped subject entry = .error (.cyclicReference "a") := by decide +kernel
  exact ⟨⟨inShared, (describe_succeeds_iff shared subject root inShared).1.mp ⟨_, described⟩⟩,
    inLooped, failed, (describe_succeeds_iff looped subject entry inLooped).2 _ failed⟩

end ClassProgression.Description
