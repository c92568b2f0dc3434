import ClassProgression.Description.Basic

namespace ClassProgression.Description

def describeChild (catalog : Catalog) (subject : Subject) (path : List String) (parent slug : String) :
    Except Fault String :=
  match catalog.get? slug with
  | none => .error (.unknownReference parent slug)
  | some child =>
      if slug ∈ path then .error (.cyclicReference slug)
      else (describeAt catalog subject (slug :: path) child).map demoteHeadings

theorem describeAt_eq (catalog : Catalog) (subject : Subject) (path : List String) (feature : Feature) :
    describeAt catalog subject path feature = do
      let own ← (Markup.substitute (Markup.Scope.ofFeature subject.displayName feature subject.className)
        feature.template).mapError .tag
      let addons ← (feature.childrenFor subject.className).mapM (describeChild catalog subject path feature.slug)
      return attach own addons := by
  rw [describeAt]
  congr
  funext own
  congr
  funext slug
  rw [describeChild]
  split <;> rename_i found <;> simp [found]

theorem describeAt_cases (catalog : Catalog) (subject : Subject) (path : List String) (feature : Feature) :
    let filled := Markup.substitute (Markup.Scope.ofFeature subject.displayName feature subject.className)
      feature.template
    let ran := (feature.childrenFor subject.className).mapM (describeChild catalog subject path feature.slug)
    (∃ cause, filled = .error cause ∧ describeAt catalog subject path feature = .error (.tag cause)) ∨
    (∃ own fault, filled = .ok own ∧ ran = .error fault ∧ describeAt catalog subject path feature = .error fault) ∨
    ∃ own addons, filled = .ok own ∧ ran = .ok addons ∧
      describeAt catalog subject path feature = .ok (attach own addons) := by
  rw [describeAt_eq]
  generalize Markup.substitute _ feature.template = filled
  generalize (feature.childrenFor subject.className).mapM (describeChild catalog subject path feature.slug) = ran
  cases filled with
  | error cause => exact .inl ⟨cause, rfl, rfl⟩
  | ok own =>
      cases ran with
      | error fault => exact .inr (.inl ⟨own, fault, rfl, rfl, rfl⟩)
      | ok addons => exact .inr (.inr ⟨own, addons, rfl, rfl, rfl⟩)

theorem describeAt_ok (catalog : Catalog) (subject : Subject) (path : List String) (feature : Feature)
    (text : String) :
    describeAt catalog subject path feature = .ok text ↔ ∃ own addons,
      Markup.substitute (Markup.Scope.ofFeature subject.displayName feature subject.className) feature.template =
        .ok own ∧
      (feature.childrenFor subject.className).mapM (describeChild catalog subject path feature.slug) = .ok addons ∧
      attach own addons = text := by
  rcases describeAt_cases catalog subject path feature with
    ⟨cause, filled, result⟩ | ⟨own, fault, filled, ran, result⟩ | ⟨own, addons, filled, ran, result⟩
  · simp [filled, result]
  · simp [filled, ran, result]
  · simp [filled, ran, result]

theorem describeChild_ok (catalog : Catalog) (subject : Subject) (path : List String) (parent slug addon : String) :
    describeChild catalog subject path parent slug = .ok addon ↔ ∃ child text,
      catalog.get? slug = some child ∧ slug ∉ path ∧
      describeAt catalog subject (slug :: path) child = .ok text ∧ demoteHeadings text = addon := by
  rw [describeChild]
  cases registered : catalog.get? slug with
  | none => simp
  | some child =>
      by_cases visited : slug ∈ path
      · simp [visited]
      · cases inner : describeAt catalog subject (slug :: path) child with
        | error fault => simp [visited, inner, Except.map]
        | ok text => simp [visited, inner, Except.map]

theorem mapM_members (step : String → Except Fault String) (slugs addons : List String)
    (ran : slugs.mapM step = .ok addons) : ∀ slug ∈ slugs, ∃ addon, step slug = .ok addon := by
  induction slugs generalizing addons with
  | nil => simp
  | cons slug rest ih =>
      rw [List.mapM_cons] at ran
      cases first : step slug with
      | error fault => simp [first, bind, Except.bind] at ran
      | ok addon =>
          cases later : rest.mapM step with
          | error fault => simp [first, later, bind, Except.bind] at ran
          | ok others =>
              intro other member
              rcases List.mem_cons.mp member with rfl | inRest
              · exact ⟨addon, first⟩
              · exact ih others later other inRest

theorem mapM_fault (step : String → Except Fault String) (slugs : List String) (fault : Fault)
    (failed : slugs.mapM step = .error fault) : ∃ slug ∈ slugs, step slug = .error fault := by
  induction slugs with
  | nil => cases failed
  | cons slug rest ih =>
      rw [List.mapM_cons] at failed
      cases first : step slug with
      | error own =>
          simp only [first, bind, Except.bind] at failed
          cases failed
          exact ⟨slug, List.mem_cons_self, first⟩
      | ok addon =>
          cases later : rest.mapM step with
          | error own =>
              simp only [first, later, bind, Except.bind] at failed
              cases failed
              obtain ⟨other, member, refused⟩ := ih later
              exact ⟨other, List.mem_cons_of_mem slug member, refused⟩
          | ok addons => simp [first, later, bind, Except.bind, pure, Except.pure] at failed

theorem describeAt_fault (catalog : Catalog) (subject : Subject) (path : List String) (feature : Feature)
    (fault : Fault) (failed : describeAt catalog subject path feature = .error fault) :
    (∃ cause, Markup.substitute (Markup.Scope.ofFeature subject.displayName feature subject.className)
      feature.template = .error cause ∧ fault = .tag cause) ∨
    ∃ slug ∈ feature.childrenFor subject.className,
      describeChild catalog subject path feature.slug slug = .error fault := by
  rcases describeAt_cases catalog subject path feature with
    ⟨cause, filled, result⟩ | ⟨own, other, filled, ran, result⟩ | ⟨own, addons, filled, ran, result⟩
  · cases result.symm.trans failed
    exact .inl ⟨cause, filled, rfl⟩
  · cases result.symm.trans failed
    exact .inr (mapM_fault _ _ _ ran)
  · cases result.symm.trans failed

theorem describeChild_fault (catalog : Catalog) (subject : Subject) (path : List String) (parent slug : String)
    (fault : Fault) (failed : describeChild catalog subject path parent slug = .error fault) :
    (catalog.get? slug = none ∧ fault = .unknownReference parent slug) ∨
    (slug ∈ path ∧ fault = .cyclicReference slug) ∨
    ∃ child, catalog.get? slug = some child ∧ slug ∉ path ∧
      describeAt catalog subject (slug :: path) child = .error fault := by
  rw [describeChild] at failed
  cases registered : catalog.get? slug with
  | none =>
      rw [registered] at failed
      cases failed
      exact .inl ⟨rfl, rfl⟩
  | some child =>
      simp only [registered] at failed
      by_cases visited : slug ∈ path
      · rw [if_pos visited] at failed
        cases failed
        exact .inr (.inl ⟨visited, rfl⟩)
      · rw [if_neg visited] at failed
        cases inner : describeAt catalog subject (slug :: path) child with
        | ok text => rw [inner] at failed; cases failed
        | error own =>
            rw [inner] at failed
            cases failed
            exact .inr (.inr ⟨child, rfl, visited, inner⟩)

end ClassProgression.Description
