import ClassProgression.Description.Basic

namespace ClassProgression.Description

-- A call as it begins: what stands on the stack, the latest slug first, and the slug of the feature to describe.
structure Call where
  path : List String
  slug : String
deriving DecidableEq

def Call.depth (call : Call) : Nat := call.path.length + 1

structure Trail where
  path : List String := []
  -- In the order in which they began.
  calls : List Call := []
deriving DecidableEq

inductive Halt where
  | fault (cause : Fault)
  | tooDeep
deriving DecidableEq

-- A walk that halts leaves the stack as it stands.
abbrev Walk := EStateM Halt Trail

namespace Walk

def halt (cause : Halt) : Walk α := fun trail => .error cause trail

def attempt (step : Except Fault α) : Walk α :=
  match step with
  | .ok value => pure value
  | .error cause => halt (.fault cause)

-- The body runs with the slug on the stack. A slug that is there already is not entered again.
def enter (slug : String) (body : Walk α) : Walk α := fun trail =>
  let calls := trail.calls ++ [⟨trail.path, slug⟩]
  if slug ∈ trail.path then .error (.fault (.cyclicReference slug)) {trail with calls := calls}
  else
    match body ⟨slug :: trail.path, calls⟩ with
    | .ok value last => .ok value {last with path := last.path.tail}
    | .error halt last => .error halt last

end Walk

-- `allowance` is how many calls may be open at once.
def walk (catalog : Catalog) (subject : Subject) : Nat → Feature → Walk String
  | 0, _ => Walk.halt .tooDeep
  | allowance + 1, feature => Walk.enter feature.slug do
      let scope := Markup.Scope.ofFeature subject.displayName feature subject.className
      let own ← Walk.attempt ((Markup.substitute scope feature.template).mapError .tag)
      let addons ← (feature.childrenFor subject.className).mapM fun slug =>
        match catalog.get? slug with
        | none => Walk.halt (.fault (.unknownReference feature.slug slug))
        | some child => demoteHeadings <$> walk catalog subject allowance child
      return attach own addons

end ClassProgression.Description
