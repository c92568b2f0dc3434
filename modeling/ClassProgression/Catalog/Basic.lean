import ClassProgression.Feature.Basic

namespace ClassProgression

structure Catalog where
  features : NameMap Feature
  keyed : ∀ entry ∈ features.entries, entry.2.slug = entry.1

namespace Catalog

instance : DecidableEq Catalog := fun left right =>
  if same : left.features = right.features then
    isTrue (by cases left; cases right; cases same; rfl)
  else isFalse fun equal => same (congrArg features equal)

def empty : Catalog := ⟨{}, fun _ member => nomatch member⟩

instance : EmptyCollection Catalog := ⟨empty⟩

instance : Inhabited Catalog := ⟨empty⟩

theorem keyed_insert (catalog : Catalog) (feature : Feature) :
    ∀ entry ∈ (catalog.features.insert feature.slug feature).entries, entry.2.slug = entry.1 := by
  intro entry member
  rcases NameMap.mem_place feature.slug feature catalog.features.entries entry member with fresh | old
  · rw [fresh]
  · exact catalog.keyed entry old

def add (catalog : Catalog) (feature : Feature) : Except Fault Catalog :=
  if catalog.features.contains feature.slug then .error (.duplicateSlug feature.slug)
  else .ok ⟨catalog.features.insert feature.slug feature, catalog.keyed_insert feature⟩

-- The first feature whose slug was taken before it is the one reported.
def ofFeatures (features : List Feature) : Except Fault Catalog := features.foldlM add empty

def size (catalog : Catalog) : Nat := catalog.features.size

def get? (catalog : Catalog) (slug : String) : Option Feature := catalog.features.get? slug

def toList (catalog : Catalog) : List Feature := catalog.features.values

def classes (catalog : Catalog) : List String :=
  NameMap.distinct (catalog.toList.flatMap fun feature => feature.classes.keys)

def boundTo (catalog : Catalog) (className : String) : List Feature :=
  catalog.toList.filter fun feature => (feature.binding? className).isSome

def contributors (catalog : Catalog) (className : String) : List Feature :=
  catalog.toList.filter fun feature => (feature.progression? className).isSome

end Catalog

end ClassProgression
