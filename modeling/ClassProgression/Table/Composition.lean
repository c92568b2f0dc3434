import ClassProgression.Catalog.Basic
import ClassProgression.Settings.Basic
import ClassProgression.Table.Draft

namespace ClassProgression

structure Contribution where
  slug : String
  fragment : List FragmentRow
deriving DecidableEq

namespace Contribution

def ofFeature? (className : String) (feature : Feature) : Option Contribution :=
  (feature.progression? className).map fun fragment => ⟨feature.slug, fragment⟩

-- Features of one slug keep their order. A feature without a fragment has no share.
def ofFeatures (className : String) (features : List Feature) : List Contribution :=
  (features.mergeSort fun left right => decide (left.slug ≤ right.slug)).filterMap (ofFeature? className)

end Contribution

namespace Draft

def applyAll (draft : Draft) (contributions : List Contribution) : Draft :=
  contributions.foldl (fun earlier share => earlier.apply share.fragment) draft

def applyAllNotices (className : String) : Draft → List Contribution → List Notice
  | _, [] => []
  | draft, share :: rest =>
      .applying share.slug share.fragment.length className ::
        (draft.applyNotices share.slug share.fragment ++
          applyAllNotices className (draft.apply share.fragment) rest)

end Draft

namespace Table

def compose (className : String) (features : List Feature) (extent : Extent) : Table :=
  ((Draft.blank extent).applyAll (Contribution.ofFeatures className features)).finish

def composeNotices (className : String) (features : List Feature) (extent : Extent) : List Notice :=
  (Draft.blank extent).applyAllNotices className (Contribution.ofFeatures className features)

def composeClass (catalog : Catalog) (className : String) (extent : Extent) : Table :=
  compose className (catalog.contributors className) extent

def composeClassNotices (catalog : Catalog) (className : String) (extent : Extent) : List Notice :=
  composeNotices className (catalog.contributors className) extent

def usualExtent (settings : Settings) (className : String) : Extent := {maxLevel := settings.maxLevelOf className}

def composeAll (catalog : Catalog) (settings : Settings) : List (String × Table) :=
  catalog.classes.map fun className => (className, composeClass catalog className (usualExtent settings className))

def composeAllNotices (catalog : Catalog) (settings : Settings) : List Notice :=
  catalog.classes.flatMap fun className => composeClassNotices catalog className (usualExtent settings className)

end Table

end ClassProgression
