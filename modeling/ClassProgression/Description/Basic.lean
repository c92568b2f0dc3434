import ClassProgression.Catalog.Basic
import ClassProgression.Description.Heading
import ClassProgression.Markup.Substitution
import ClassProgression.NameMap.Lemmas
import ClassProgression.Notice

namespace ClassProgression

structure Subject where
  className : String
  displayName : String
deriving DecidableEq

namespace Description

def unvisited (catalog : Catalog) (path : List String) : Nat :=
  catalog.features.keys.countP fun slug => decide (slug ∉ path)

theorem unvisited_cons (catalog : Catalog) (path : List String) (slug : String)
    (registered : slug ∈ catalog.features.keys) (fresh : slug ∉ path) :
    unvisited catalog (slug :: path) < unvisited catalog path := by
  have general : ∀ slugs : List String, slug ∈ slugs →
      slugs.countP (fun other => decide (other ∉ slug :: path)) <
        slugs.countP (fun other => decide (other ∉ path)) := by
    intro slugs member
    obtain ⟨before, after, rfl⟩ := List.append_of_mem member
    have earlier : before.countP (fun other => decide (other ∉ slug :: path)) ≤
        before.countP (fun other => decide (other ∉ path)) :=
      List.countP_mono_left (by simp)
    have later : after.countP (fun other => decide (other ∉ slug :: path)) ≤
        after.countP (fun other => decide (other ∉ path)) :=
      List.countP_mono_left (by simp)
    rw [List.countP_append, List.countP_append, List.countP_cons_of_neg (by simp),
      List.countP_cons_of_pos (by simpa using fresh)]
    omega
  exact general _ registered

-- Children that have nothing to say leave no trace.
def attach (own : String) (addons : List String) : String :=
  (addons.filter (! ·.isEmpty)).foldl (fun text addon => text ++ "\n" ++ addon) own

-- `path` holds the slugs from the feature up to the root, the feature's own included.
def describeAt (catalog : Catalog) (subject : Subject) (path : List String) (feature : Feature) :
    Except Fault String := do
  let scope := Markup.Scope.ofFeature subject.displayName feature subject.className
  let own ← (Markup.substitute scope feature.template).mapError .tag
  let addons ← (feature.childrenFor subject.className).mapM fun slug =>
    match _registered : catalog.get? slug with
    | none => .error (.unknownReference feature.slug slug)
    | some child =>
        if _fresh : slug ∈ path then .error (.cyclicReference slug)
        else (describeAt catalog subject (slug :: path) child).map demoteHeadings
  return attach own addons
termination_by unvisited catalog path
decreasing_by exact unvisited_cons catalog path slug (catalog.features.mem_keys_of_get? slug child _registered) _fresh

def describe (catalog : Catalog) (subject : Subject) (feature : Feature) : Except Fault String :=
  describeAt catalog subject [feature.slug] feature

def describeClass (catalog : Catalog) (subject : Subject) : Except Fault (List (String × String)) :=
  (catalog.boundTo subject.className).mapM fun feature =>
    (describe catalog subject feature).map fun text => (feature.slug, text)

-- One notice for each feature up to the first that cannot be described.
def describeClassNotices (catalog : Catalog) (subject : Subject) : List Notice :=
  let features := catalog.boundTo subject.className
  let described := features.takeWhile fun feature => (describe catalog subject feature).isOk
  (features.take (described.length + 1)).map fun feature => .describing feature.slug subject.className

end Description

end ClassProgression
