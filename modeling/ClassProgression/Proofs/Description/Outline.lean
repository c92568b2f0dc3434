import ClassProgression.Proofs.Description.Descent
import ClassProgression.Proofs.Description.Heading
import Mathlib.Data.List.Basic

namespace ClassProgression.Description

-- A visited feature with its template filled in, and the visits below it.
inductive Outline where
  | node (feature : Feature) (own : String) (children : List Outline)

namespace Outline

def feature : Outline → Feature
  | node feature _ _ => feature

def own : Outline → String
  | node _ own _ => own

-- The nodes before what stands below them, each with its depth.
def passages (depth : Nat) : Outline → List (Nat × Outline)
  | node feature own children => (depth, node feature own children) :: children.flatMap (passages (depth + 1))

def silent (tree : Outline) : Bool := (tree.passages 0).all fun passage => passage.2.own.isEmpty

def kept (tree : Outline) : List (Nat × Outline) :=
  (0, tree) :: (tree.passages 0).tail.filter fun passage => ! passage.2.silent

def text : Outline → String
  | node _ own children => attach own (children.map fun child => demoteHeadings child.text)

end Outline

-- The tree is the one below its root: templates are filled in for the class, and the children of a
-- node are the features that its slugs name, in their order.
inductive Visited (catalog : Catalog) (subject : Subject) : Outline → Prop where
  | node (feature : Feature) (own : String) (children : List Outline)
      (filled : Markup.substitute (Markup.Scope.ofFeature subject.displayName feature subject.className)
        feature.template = .ok own)
      (listed : (feature.childrenFor subject.className).map catalog.get? =
        children.map fun child => some child.feature)
      (below : ∀ child ∈ children, Visited catalog subject child) :
      Visited catalog subject (.node feature own children)

theorem same_outlines (left right : List Outline) (listed : left.map Outline.feature = right.map Outline.feature)
    (each : ∀ child ∈ left, ∀ other ∈ right, child.feature = other.feature → child = other) : left = right := by
  induction left generalizing right with
  | nil => exact (List.map_eq_nil_iff.mp listed.symm).symm
  | cons child rest ih =>
      cases right with
      | nil => cases listed
      | cons other more =>
          obtain ⟨same, restListed⟩ := List.cons.inj listed
          have first := each child List.mem_cons_self other List.mem_cons_self same
          have later := ih more restListed fun next inRest another inMore =>
            each next (List.mem_cons_of_mem child inRest) another (List.mem_cons_of_mem other inMore)
          rw [first, later]

theorem Visited.unique (catalog : Catalog) (subject : Subject) (tree other : Outline)
    (visited : Visited catalog subject tree) (otherVisited : Visited catalog subject other)
    (same : other.feature = tree.feature) : other = tree := by
  induction visited generalizing other with
  | node feature own children filled listed below ih =>
      cases otherVisited with
      | node otherFeature otherOwn otherChildren otherFilled otherListed otherBelow =>
          change otherFeature = feature at same
          subst same
          obtain rfl : otherOwn = own := Except.ok.inj (otherFilled.symm.trans filled)
          have features : otherChildren.map Outline.feature = children.map Outline.feature := by
            have bySlugs := otherListed.symm.trans listed
            have unwrapped := congrArg (List.filterMap id) bySlugs
            simpa [List.filterMap_map] using unwrapped
          rw [same_outlines otherChildren children features fun child inOther member inChildren agree =>
            ih member inChildren child (otherBelow child inOther) agree]

theorem foldl_below (own : String) (parts : List String) :
    parts.foldl (fun text part => text ++ "\n" ++ part) own = "\n".intercalate (own :: parts) := by
  induction parts generalizing own with
  | nil => rw [List.foldl_nil, String.intercalate_singleton]
  | cons part rest ih =>
      rw [List.foldl_cons, ih, String.intercalate_cons_append, String.intercalate_cons_cons, String.append_assoc]

theorem attach_eq (own : String) (addons : List String) :
    attach own addons = "\n".intercalate (own :: addons.filter (! ·.isEmpty)) := foldl_below ..

theorem intercalate_parts (parts rest : List String) (inhabited : parts ≠ []) :
    "\n".intercalate ("\n".intercalate parts :: rest) = "\n".intercalate (parts ++ rest) := by
  cases rest with
  | nil => simp
  | cons next more =>
      rw [String.intercalate_cons_cons, String.intercalate_append_of_ne_nil inhabited (List.cons_ne_nil next more)]

theorem intercalate_eq_empty (own : String) (parts : List String) :
    "\n".intercalate (own :: parts) = "" ↔ own = "" ∧ parts = [] := by
  cases parts with
  | nil => simp
  | cons part rest => simp [String.intercalate_cons_cons]

theorem attach_eq_empty (own : String) (addons : List String) :
    attach own addons = "" ↔ own = "" ∧ ∀ addon ∈ addons, addon = "" := by
  rw [attach_eq, intercalate_eq_empty, List.filter_eq_nil_iff]
  simp

namespace Outline

theorem passages_add (tree : Outline) (depth more : Nat) :
    tree.passages (depth + more) = (tree.passages depth).map fun passage => (passage.1 + more, passage.2) := by
  induction depth, tree using passages.induct with
  | case1 depth feature own children ih =>
      have children_add : children.flatMap (passages (depth + more + 1)) =
          children.flatMap fun child =>
            (child.passages (depth + 1)).map fun passage => (passage.1 + more, passage.2) := by
        apply List.flatMap_congr
        intro child member
        rw [Nat.add_right_comm]
        exact ih child member
      rw [passages, children_add, passages, List.map_cons, List.map_flatMap]

theorem silent_node (feature : Feature) (own : String) (children : List Outline) :
    (node feature own children).silent = (own.isEmpty && children.all silent) := by
  have each (child : Outline) :
      ((child.passages (0 + 1)).all fun passage => passage.2.own.isEmpty) = child.silent := by
    rw [passages_add, List.all_map]
    rfl
  rw [silent, passages, List.all_cons, List.all_flatMap]
  simp only [each]
  rfl

theorem silent_of_mem_passages (tree : Outline) (depth : Nat) (quiet : tree.silent = true) :
    ∀ passage ∈ tree.passages depth, passage.2.silent = true := by
  induction depth, tree using passages.induct with
  | case1 depth feature own children ih =>
      intro passage member
      rw [passages, List.mem_cons] at member
      rcases member with rfl | below
      · exact quiet
      · obtain ⟨child, inChildren, inChild⟩ := List.mem_flatMap.mp below
        rw [silent_node, Bool.and_eq_true, List.all_eq_true] at quiet
        exact ih child inChildren (quiet.2 child inChildren) passage inChild

theorem text_eq_empty (tree : Outline) : tree.text = "" ↔ tree.silent = true := by
  induction tree using text.induct with
  | case1 feature own children ih =>
      have below : (∀ addon ∈ children.map fun child => demoteHeadings child.text, addon = "") ↔
          ∀ child ∈ children, child.silent = true := by
        rw [List.forall_mem_map]
        refine forall₂_congr fun child member => ?_
        rw [demoteHeadings_exact, deepen_eq_empty, ih child member]
      rw [text, attach_eq_empty, below, silent_node, Bool.and_eq_true, List.all_eq_true, String.isEmpty_iff]

def reading (passage : Nat × Outline) : String := deepen passage.1 passage.2.own

theorem kept_below (tree : Outline) (depth : Nat) :
    (tree.passages depth).filter (fun passage => ! passage.2.silent) =
      if tree.silent then [] else tree.kept.map fun passage => (passage.1 + depth, passage.2) := by
  by_cases quiet : tree.silent = true
  · rw [if_pos quiet, List.filter_eq_nil_iff]
    intro passage member
    simp [silent_of_mem_passages tree depth quiet passage member]
  · obtain ⟨feature, own, children⟩ := tree
    have shifted := passages_add (node feature own children) 0 depth
    rw [Nat.zero_add] at shifted
    rw [if_neg quiet, shifted, List.filter_map, kept, passages, List.tail_cons, List.filter_cons_of_pos]
    · rfl
    · simpa using quiet

theorem demoted_exact (tree : Outline) (exact : tree.text = "\n".intercalate (tree.kept.map reading)) :
    demoteHeadings tree.text = "\n".intercalate (tree.kept.map fun passage => reading (passage.1 + 1, passage.2)) := by
  have further : deepen 1 ∘ reading = fun passage => reading (passage.1 + 1, passage.2) :=
    funext fun passage => deepen_add passage.1 1 passage.2.own
  rw [demoteHeadings_exact, exact, deepen_intercalate, List.map_map, further]

-- The text above the children takes part in the induction: a child's text stands above its siblings.
theorem children_exact (children : List Outline) (above : String)
    (each : ∀ child ∈ children, child.text = "\n".intercalate (child.kept.map reading)) :
    "\n".intercalate (above :: (children.map fun child => demoteHeadings child.text).filter (! ·.isEmpty)) =
      "\n".intercalate (above ::
        ((children.flatMap (passages 1)).filter fun passage => ! passage.2.silent).map reading) := by
  induction children generalizing above with
  | nil => rfl
  | cons child rest ih =>
      have later (above : String) := ih above fun other inRest => each other (List.mem_cons_of_mem child inRest)
      have demoted := demoted_exact child (each child List.mem_cons_self)
      rw [List.map_cons, List.flatMap_cons, List.filter_append, kept_below, List.map_append]
      by_cases quiet : child.silent = true
      · have empty : demoteHeadings child.text = "" := by
          rw [demoteHeadings_exact, deepen_eq_empty, text_eq_empty, quiet]
        rw [if_pos quiet, empty, List.filter_cons_of_neg (by simp), later above]
        rfl
      · have spoken : demoteHeadings child.text ≠ "" := by
          rwa [Ne, demoteHeadings_exact, deepen_eq_empty, text_eq_empty]
        have inhabited : (child.kept.map fun passage => reading (passage.1 + 1, passage.2)) ≠ [] := by simp [kept]
        rw [if_neg quiet, List.filter_cons_of_pos (by simpa using spoken), String.intercalate_cons_cons,
          later (demoteHeadings child.text), demoted, intercalate_parts _ _ inhabited, List.map_map]
        exact (String.intercalate_cons_of_ne_nil (List.append_ne_nil_of_left_ne_nil inhabited _)).symm

theorem text_exact (tree : Outline) : tree.text = "\n".intercalate (tree.kept.map reading) := by
  induction tree using text.induct with
  | case1 feature own children ih =>
      have root : reading (0, node feature own children) = own := deepen_zero own
      rw [text, attach_eq, children_exact children own ih, kept, passages, List.tail_cons, List.map_cons, root]

end Outline

theorem children_of_mapM (catalog : Catalog) (subject : Subject) (step : String → Except Fault String)
    (slugs addons : List String) (ran : slugs.mapM step = .ok addons)
    (each : ∀ slug addon, step slug = .ok addon → ∃ child : Outline,
      Visited catalog subject child ∧ catalog.get? slug = some child.feature ∧ demoteHeadings child.text = addon) :
    ∃ children : List Outline, (∀ child ∈ children, Visited catalog subject child) ∧
      slugs.map catalog.get? = children.map (fun child => some child.feature) ∧
      (children.map fun child => demoteHeadings child.text) = addons := by
  induction slugs generalizing addons with
  | nil =>
      cases ran
      exact ⟨[], by simp, rfl, rfl⟩
  | cons slug rest ih =>
      rw [List.mapM_cons] at ran
      cases first : step slug with
      | error fault => simp [first, bind, Except.bind] at ran
      | ok addon =>
          cases later : rest.mapM step with
          | error fault => simp [first, later, bind, Except.bind] at ran
          | ok addons =>
              simp only [first, later, bind, Except.bind, pure, Except.pure] at ran
              cases ran
              obtain ⟨child, visited, found, rfl⟩ := each slug addon first
              obtain ⟨children, below, listed, rfl⟩ := ih addons later
              refine ⟨child :: children, ?_, by simp [found, listed], by simp⟩
              intro other member
              rcases List.mem_cons.mp member with rfl | older
              · exact visited
              · exact below other older

theorem describeAt_visits (catalog : Catalog) (subject : Subject) (path : List String) (feature : Feature)
    (text : String) (described : describeAt catalog subject path feature = .ok text) :
    ∃ tree : Outline, Visited catalog subject tree ∧ tree.feature = feature ∧ tree.text = text := by
  induction path, feature using describeAt.induct catalog subject generalizing text with
  | case1 path feature ih =>
      obtain ⟨own, addons, filled, ran, rfl⟩ := (describeAt_ok catalog subject path feature text).mp described
      have each (slug addon : String) (ok : describeChild catalog subject path feature.slug slug = .ok addon) :
          ∃ child : Outline, Visited catalog subject child ∧ catalog.get? slug = some child.feature ∧
            demoteHeadings child.text = addon := by
        obtain ⟨child, text, registered, fresh, inner, rfl⟩ := (describeChild_ok ..).mp ok
        obtain ⟨tree, visited, rfl, rfl⟩ := ih slug child registered fresh text inner
        exact ⟨tree, visited, registered, rfl⟩
      obtain ⟨children, below, listed, rfl⟩ := children_of_mapM catalog subject _ _ addons ran each
      exact ⟨.node feature own children, .node feature own children filled listed below, rfl, by rw [Outline.text]⟩

theorem describe_flattens (catalog : Catalog) (subject : Subject) (feature : Feature) (text : String)
    (described : describe catalog subject feature = .ok text) :
    ∃ tree : Outline,
      (∀ other, Visited catalog subject other ∧ other.feature = feature ↔ other = tree) ∧
      text = "\n".intercalate (tree.kept.map fun passage => deepen passage.1 passage.2.own) := by
  obtain ⟨tree, visited, root, rfl⟩ := describeAt_visits catalog subject [feature.slug] feature text described
  refine ⟨tree, fun other => ⟨?_, ?_⟩, tree.text_exact⟩
  · rintro ⟨otherVisited, otherRoot⟩
    exact Visited.unique catalog subject tree other visited otherVisited (otherRoot.trans root.symm)
  · rintro rfl
    exact ⟨visited, root⟩

-- An empty parent whose child speaks, and an empty leaf.
theorem quiet_parent_flattens :
    let quiet : Feature := {slug := "quiet", children := ["deep"]}
    let deep : Feature := {slug := "deep", template := "# Deep"}
    let root : Feature := {slug := "root", template := "# Root", children := ["quiet", "blank", "deep"]}
    let catalog := (Catalog.ofFeatures [quiet, deep, {slug := "blank"}]).toOption.getD {}
    let subject : Subject := ⟨"fighter", "Fighter"⟩
    describe catalog subject root = .ok "# Root\n\n### Deep\n## Deep" ∧ ∃ tree : Outline,
      (∀ other, Visited catalog subject other ∧ other.feature = root ↔ other = tree) ∧
      "# Root\n\n### Deep\n## Deep" =
        "\n".intercalate (tree.kept.map fun passage => deepen passage.1 passage.2.own) := by
  intro quiet deep root catalog subject
  have described : describe catalog subject root = .ok "# Root\n\n### Deep\n## Deep" := by decide +kernel
  exact ⟨described, describe_flattens catalog subject root _ described⟩

end ClassProgression.Description
