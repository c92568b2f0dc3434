import ClassProgression.NameMap.Basic

namespace ClassProgression.NameMap

theorem lookup_place (name query : String) (value : α) (entries : List (String × α)) :
    lookup query (place name value entries) = if query = name then some value else lookup query entries := by
  induction entries with
  | nil => rfl
  | cons head rest ih =>
      obtain ⟨other, previous⟩ := head
      by_cases same : name = other
      · subst same
        by_cases asked : query = name <;> simp [place, lookup, asked]
      · by_cases less : name < other
        · simp [place, lookup, same, less]
        · by_cases asked : query = other
          · subst asked
            simp [place, lookup, same, less, Ne.symm same]
          · simp [place, lookup, same, less, asked, ih]

theorem mem_of_lookup (name : String) (value : α) (entries : List (String × α))
    (found : lookup name entries = some value) : (name, value) ∈ entries := by
  induction entries with
  | nil => cases found
  | cons head rest ih =>
      unfold lookup at found
      split at found
      · rename_i same
        cases found
        simp [same]
      · exact List.mem_cons_of_mem _ (ih found)

theorem lookup_eq_none (name : String) (entries : List (String × α)) :
    lookup name entries = none ↔ ∀ entry ∈ entries, entry.1 ≠ name := by
  induction entries with
  | nil => simp [lookup]
  | cons head rest ih =>
      by_cases same : name = head.1
      · simp [lookup, same]
      · simp [lookup, same, ih, Ne.symm same]

theorem lookup_of_nodup (name : String) (value : α) (entries : List (String × α))
    (distinct : (entries.map (·.1)).Nodup) (member : (name, value) ∈ entries) : lookup name entries = some value := by
  induction entries with
  | nil => cases member
  | cons head rest ih =>
      obtain ⟨apart, tail⟩ := List.nodup_cons.mp distinct
      rcases List.mem_cons.mp member with rfl | later
      · simp [lookup]
      · have different : name ≠ head.1 := fun same => apart (List.mem_map.mpr ⟨_, later, same⟩)
        simp [lookup, different, ih tail later]

theorem lookup_of_mem (name : String) (value : α) (entries : List (String × α))
    (ascending : Ascending entries) (member : (name, value) ∈ entries) : lookup name entries = some value := by
  refine lookup_of_nodup name value entries (List.pairwise_map.mpr (ascending.imp fun less same => ?_)) member
  exact String.lt_irrefl _ (same ▸ less)

theorem eq_of_lookup (left right : List (String × α)) (leftAscending : Ascending left)
    (rightAscending : Ascending right) (same : ∀ name, lookup name left = lookup name right) :
    left = right := by
  induction left generalizing right with
  | nil =>
      cases right with
      | nil => rfl
      | cons head rest => simpa [lookup] using same head.1
  | cons head rest ih =>
      cases right with
      | nil => simpa [lookup] using same head.1
      | cons other more =>
          have ⟨first, tail⟩ := List.pairwise_cons.mp leftAscending
          have ⟨otherFirst, otherTail⟩ := List.pairwise_cons.mp rightAscending
          have inRight := mem_of_lookup head.1 head.2 (other :: more) ((same head.1).symm.trans (by simp [lookup]))
          have inLeft := mem_of_lookup other.1 other.2 (head :: rest) ((same other.1).trans (by simp [lookup]))
          have heads : head = other := by
            rcases List.mem_cons.mp inRight with equal | later
            · exact equal
            · rcases List.mem_cons.mp inLeft with equal | earlier
              · exact equal.symm
              · exact absurd (String.lt_trans (first _ earlier) (otherFirst _ later)) (String.lt_irrefl _)
          subst heads
          refine congrArg (head :: ·) (ih more tail otherTail fun name => ?_)
          by_cases asked : name = head.1
          · have absent (entries : List (String × α)) (later : ∀ entry ∈ entries, head.1 < entry.1) :
                lookup name entries = none :=
              (lookup_eq_none _ _).mpr fun entry member equal =>
                String.lt_irrefl _ (asked ▸ equal ▸ later entry member)
            rw [absent rest first, absent more otherFirst]
          · simpa [lookup, asked] using same name

theorem eq_of_get? (left right : NameMap α) (same : ∀ name, left.get? name = right.get? name) :
    left = right := by
  have entries := eq_of_lookup _ _ left.ascending right.ascending same
  cases left; cases right; cases entries; rfl

@[simp]
theorem get?_empty (name : String) : ({} : NameMap α).get? name = none := rfl

@[simp]
theorem get?_insert (m : NameMap α) (name query : String) (value : α) :
    (m.insert name value).get? query = if query = name then some value else m.get? query :=
  lookup_place name query value m.entries

theorem lookup_map (f : α → β) (entries : List (String × α)) (name : String) :
    lookup name (entries.map fun entry => (entry.1, f entry.2)) = (lookup name entries).map f := by
  induction entries with
  | nil => rfl
  | cons head rest ih => by_cases same : name = head.1 <;> simp [lookup, same, ih]

@[simp]
theorem get?_map (f : α → β) (m : NameMap α) (name : String) : (m.map f).get? name = (m.get? name).map f :=
  lookup_map f m.entries name

theorem mem_keys (m : NameMap α) (name : String) : name ∈ m.keys ↔ (m.get? name).isSome := by
  constructor
  · intro member
    obtain ⟨entry, held, rfl⟩ := List.mem_map.mp member
    simp [get?, lookup_of_mem entry.1 entry.2 m.entries m.ascending held]
  · intro found
    obtain ⟨value, held⟩ := Option.isSome_iff_exists.mp found
    exact List.mem_map.mpr ⟨_, mem_of_lookup _ _ _ held, rfl⟩

theorem mem_keys_of_get? (m : NameMap α) (name : String) (value : α) (found : m.get? name = some value) :
    name ∈ m.keys := (m.mem_keys name).mpr (by simp [found])

theorem exists_of_mem_keys (m : NameMap α) (name : String) (listed : name ∈ m.keys) :
    ∃ value, m.get? name = some value := Option.isSome_iff_exists.mp ((m.mem_keys name).mp listed)

theorem not_mem_keys (m : NameMap α) (name : String) : name ∉ m.keys ↔ m.get? name = none := by
  rw [mem_keys, Option.not_isSome_iff_eq_none]

theorem mem_values (m : NameMap α) (value : α) : value ∈ m.values ↔ ∃ name, m.get? name = some value := by
  constructor
  · intro member
    obtain ⟨entry, listed, rfl⟩ := List.mem_map.mp member
    exact ⟨entry.1, lookup_of_mem _ _ _ m.ascending listed⟩
  · rintro ⟨name, found⟩
    exact List.mem_map_of_mem (mem_of_lookup name value _ found)

theorem keys_pairwise (m : NameMap α) : m.keys.Pairwise (· < ·) := List.pairwise_map.mpr m.ascending

theorem place_perm (name : String) (value : α) (entries : List (String × α)) (fresh : lookup name entries = none) :
    (place name value entries).Perm ((name, value) :: entries) := by
  induction entries with
  | nil => rfl
  | cons head rest ih =>
      obtain ⟨other, held⟩ := head
      have different : name ≠ other := fun same => (lookup_eq_none _ _).mp fresh (other, held) List.mem_cons_self same.symm
      unfold place
      rw [if_neg different]
      split
      · rfl
      · rw [lookup, if_neg different] at fresh
        exact ((ih fresh).cons _).trans (.swap _ _ _)

theorem values_insert (m : NameMap α) (name : String) (value : α) (fresh : m.get? name = none) :
    (m.insert name value).values.Perm (value :: m.values) := (place_perm name value m.entries fresh).map _

@[simp]
theorem values_map (f : α → β) (m : NameMap α) : (m.map f).values = m.values.map f := by
  rw [values, values, map, List.map_map, List.map_map]
  rfl

theorem get?_insertAll (m : NameMap α) (added : List (String × α)) (name : String) :
    (m.insertAll added).get? name = (lookup name added.reverse).or (m.get? name) := by
  have appended (first second : List (String × α)) :
      lookup name (first ++ second) = (lookup name first).or (lookup name second) := by
    induction first with
    | nil => rfl
    | cons head rest ih => by_cases same : name = head.1 <;> simp [lookup, same, ih]
  induction added generalizing m with
  | nil => rfl
  | cons head rest ih =>
      rw [List.reverse_cons, appended, Option.or_assoc, insertAll, List.foldl_cons]
      refine (ih (m.insert head.1 head.2)).trans (congrArg _ ?_)
      by_cases same : name = head.1 <;> simp [lookup, same]

@[simp]
theorem get?_ofList (entries : List (String × α)) (name : String) :
    (ofList entries).get? name = lookup name entries.reverse := by
  exact (get?_insertAll _ _ _).trans Option.or_none

@[simp]
theorem get?_tabulate (names : List String) (value : String → α) (name : String) :
    (tabulate names value).get? name = if name ∈ names then some (value name) else none := by
  have general (others : List String) : lookup name (others.map fun other => (other, value other)) =
      if name ∈ others then some (value name) else none := by
    induction others with
    | nil => rfl
    | cons head rest ih => by_cases same : name = head <;> simp [lookup, same, ih]
  simp [tabulate, ← List.map_reverse, general]

theorem mem_values_ofList (entries : List (String × α)) (value : α) (listed : value ∈ (ofList entries).values) :
    ∃ entry ∈ entries, entry.2 = value := by
  obtain ⟨name, held⟩ := ((ofList entries).mem_values value).mp listed
  rw [get?_ofList] at held
  exact ⟨(name, value), List.mem_reverse.mp (mem_of_lookup _ _ _ held), rfl⟩

theorem ofList_map (f : α → β) (entries : List (String × α)) :
    ofList (entries.map fun entry => (entry.1, f entry.2)) = (ofList entries).map f := by
  apply eq_of_get?
  intro name
  simpa [← List.map_reverse] using lookup_map f entries.reverse name

-- In ascending entries it does not matter from which end an entry is sought.
theorem lookup_reverse (entries : List (String × α)) (ascending : Ascending entries) (name : String) :
    lookup name entries.reverse = lookup name entries := by
  cases found : lookup name entries.reverse with
  | none =>
      have absent := (lookup_eq_none _ _).mp found
      exact ((lookup_eq_none _ _).mpr fun entry member => absent entry (List.mem_reverse.mpr member)).symm
  | some value =>
      have member := List.mem_reverse.mp (mem_of_lookup _ _ _ found)
      exact (lookup_of_mem name value entries ascending member).symm

@[simp]
theorem get?_insertEntries (m added : NameMap α) (name : String) :
    (m.insertAll added.entries).get? name = (added.get? name).or (m.get? name) := by
  rw [get?_insertAll, lookup_reverse _ added.ascending]
  rfl

@[simp]
theorem ofList_entries (m : NameMap α) : ofList m.entries = m :=
  eq_of_get? _ _ fun name => (get?_ofList _ _).trans (lookup_reverse m.entries m.ascending name)

@[simp]
theorem mem_distinct (names : List String) (name : String) : name ∈ distinct names ↔ name ∈ names := by
  have tabulated : distinct names = (tabulate names fun _ => ()).keys := rfl
  simp [tabulated, mem_keys]

theorem distinct_ascending (names : List String) : (distinct names).Pairwise (· < ·) := keys_pairwise _

theorem lookup_rest (head : String × α) (rest : List (String × α)) (first : ∀ entry ∈ rest, head.1 < entry.1) :
    lookup head.1 rest = none :=
  (lookup_eq_none _ _).mpr fun entry member equal => String.lt_irrefl _ (equal ▸ first entry member)

theorem filterMap_entries (m : NameMap α) (name : String) (f : α → β) :
    m.entries.filterMap (fun entry => if entry.1 = name then some (f entry.2) else none) =
      ((m.get? name).map f).toList := by
  have general : ∀ entries : List (String × α), Ascending entries →
      entries.filterMap (fun entry => if entry.1 = name then some (f entry.2) else none) =
        ((lookup name entries).map f).toList := by
    intro entries ascending
    induction entries with
    | nil => rfl
    | cons head rest ih =>
        have ⟨first, tail⟩ := List.pairwise_cons.mp ascending
        by_cases same : head.1 = name
        · have later : lookup name rest = none := same ▸ lookup_rest head rest first
          simp [lookup, same, ih tail, later]
        · simp [lookup, same, Ne.symm same, ih tail]
  exact general m.entries m.ascending

theorem tabulate_congr (left right : List String) (f g : String → α)
    (sameNames : ∀ name, name ∈ left ↔ name ∈ right) (sameValues : ∀ name ∈ left, f name = g name) :
    tabulate left f = tabulate right g := by
  apply eq_of_get?
  intro name
  by_cases member : name ∈ left
  · simp [member, (sameNames name).mp member, sameValues name member]
  · simp [member, mt (sameNames name).mpr member]

@[simp]
theorem mem_keys_tabulate (names : List String) (value : String → α) (name : String) :
    name ∈ (tabulate names value).keys ↔ name ∈ names := by
  simp [mem_keys]

def absorbAt (combine : String → α → α → Except ε α) (name : String) :
    Option α → Option α → Except ε (Option α)
  | held, none => .ok held
  | none, some incoming => .ok (some incoming)
  | some held, some incoming => (combine name held incoming).map some

@[simp]
theorem absorbAt_none (combine : String → α → α → Except ε α) (name : String) (held : Option α) :
    absorbAt combine name held none = .ok held := by
  cases held <;> rfl

def absorbEntry (combine : String → α → α → Except ε α) (m : NameMap α) (entry : String × α) :
    Except ε (NameMap α) :=
  match m.get? entry.1 with
  | none => .ok (m.insert entry.1 entry.2)
  | some held => (combine entry.1 held entry.2).map (m.insert entry.1)

theorem absorb_eq_foldlM (combine : String → α → α → Except ε α) (m added : NameMap α) :
    m.absorb combine added = added.entries.foldlM (absorbEntry combine) m := rfl

theorem absorbEntry_cases (combine : String → α → α → Except ε α) (m : NameMap α) (name : String) (incoming : α) :
    (∃ value, absorbAt combine name (m.get? name) (some incoming) = .ok (some value) ∧
      absorbEntry combine m (name, incoming) = .ok (m.insert name value)) ∨
    ∃ fault, absorbAt combine name (m.get? name) (some incoming) = .error fault ∧
      absorbEntry combine m (name, incoming) = .error fault := by
  unfold absorbEntry
  cases m.get? name with
  | none => exact .inl ⟨incoming, rfl, rfl⟩
  | some held =>
      cases combined : combine name held incoming with
      | ok value => exact .inl ⟨value, by rw [absorbAt, combined]; rfl, by simp only [combined]; rfl⟩
      | error fault => exact .inr ⟨fault, by rw [absorbAt, combined]; rfl, by simp only [combined]; rfl⟩

-- An addition succeeds exactly if it does at every name, and its result is known by its look-ups.
theorem absorb_eq_ok (combine : String → α → α → Except ε α) (m added result : NameMap α) :
    m.absorb combine added = .ok result ↔
      ∀ name, absorbAt combine name (m.get? name) (added.get? name) = .ok (result.get? name) := by
  have general : ∀ (entries : List (String × α)) (m : NameMap α), Ascending entries →
      (entries.foldlM (absorbEntry combine) m = .ok result ↔
        ∀ name, absorbAt combine name (m.get? name) (lookup name entries) = .ok (result.get? name)) := by
    intro entries
    induction entries with
    | nil =>
        intro m _
        simp only [lookup, absorbAt_none]
        constructor
        · intro same name
          exact congrArg (fun m : NameMap α => Except.ok (m.get? name)) (Except.ok.inj same)
        · intro same
          exact congrArg Except.ok (eq_of_get? _ _ fun name => Except.ok.inj (same name))
    | cons head rest ih =>
        intro m ascending
        obtain ⟨key, incoming⟩ := head
        have ⟨first, tail⟩ := List.pairwise_cons.mp ascending
        rw [List.foldlM_cons]
        rcases absorbEntry_cases combine m key incoming with ⟨value, own, stepped⟩ | ⟨fault, own, stepped⟩
        · -- The first name is settled by `value`, and the rest does not touch it again.
          rw [stepped]
          refine (ih (m.insert key value) tail).trans (forall_congr' fun name => ?_)
          by_cases same : name = key
          · subst same
            simp [lookup, lookup_rest _ rest first, own]
          · simp [lookup, same]
        · rw [stepped]
          refine iff_of_false (fun accepted => nomatch accepted) fun all => ?_
          have refused := all key
          rw [lookup, if_pos rfl, own] at refused
          cases refused
  rw [absorb_eq_foldlM]
  exact general added.entries m added.ascending

theorem least_unique (kind : String → Prop) (left right : String) (inLeft : kind left) (inRight : kind right)
    (leastLeft : ∀ other, other < left → ¬ kind other) (leastRight : ∀ other, other < right → ¬ kind other) :
    left = right := by
  apply Classical.byContradiction
  intro different
  by_cases less : left < right
  · exact leastRight left less inLeft
  · exact leastLeft right (lt_of_not_lt left right different less) inRight

-- An addition fails with what the least name that cannot be added fails with.
theorem absorb_eq_error (combine : String → α → α → Except ε α) (m added : NameMap α) (fault : ε) :
    m.absorb combine added = .error fault ↔
      ∃ name, absorbAt combine name (m.get? name) (added.get? name) = .error fault ∧
        ∀ other, other < name → ∃ result, absorbAt combine other (m.get? other) (added.get? other) = .ok result := by
  have least : ∀ (entries : List (String × α)) (m : NameMap α) (fault : ε), Ascending entries →
      entries.foldlM (absorbEntry combine) m = .error fault →
      ∃ name, absorbAt combine name (m.get? name) (lookup name entries) = .error fault ∧
        ∀ other, other < name → ∃ result, absorbAt combine other (m.get? other) (lookup other entries) = .ok result := by
    intro entries
    induction entries with
    | nil => intro m fault _ failed; cases failed
    | cons head rest ih =>
        intro m fault ascending failed
        obtain ⟨key, incoming⟩ := head
        have ⟨first, tail⟩ := List.pairwise_cons.mp ascending
        rw [List.foldlM_cons] at failed
        rcases absorbEntry_cases combine m key incoming with ⟨value, own, stepped⟩ | ⟨refusal, own, stepped⟩
        · rw [stepped] at failed
          obtain ⟨name, refused, below⟩ := ih (m.insert key value) fault tail failed
          have settled (other : String) (different : other ≠ key) :
              absorbAt combine other ((m.insert key value).get? other) (lookup other rest) =
                absorbAt combine other (m.get? other) (lookup other ((key, incoming) :: rest)) := by
            simp [lookup, different]
          have different : name ≠ key := by
            rintro rfl
            rw [lookup_rest _ rest first, absorbAt_none] at refused
            cases refused
          refine ⟨name, (settled name different).symm.trans refused, fun other less => ?_⟩
          by_cases same : other = key
          · subst same
            exact ⟨some value, by rw [lookup, if_pos rfl, own]⟩
          · rw [← settled other same]
            exact below other less
        · rw [stepped] at failed
          cases failed
          refine ⟨key, by rw [lookup, if_pos rfl, own], fun other less => ⟨m.get? other, ?_⟩⟩
          have absent : lookup other ((key, incoming) :: rest) = none := by
            refine (lookup_eq_none _ _).mpr fun entry member same => ?_
            rcases List.mem_cons.mp member with rfl | later
            · exact String.lt_irrefl _ (same ▸ less)
            · exact String.lt_irrefl _ (String.lt_trans (same ▸ less) (first entry later))
          rw [absent, absorbAt_none]
  rw [absorb_eq_foldlM]
  refine ⟨least added.entries m fault added.ascending, ?_⟩
  rintro ⟨name, refused, below⟩
  cases outcome : added.entries.foldlM (absorbEntry combine) m with
  | ok result =>
      rw [(absorb_eq_ok combine m added result).mp outcome name] at refused
      cases refused
  | error other =>
      obtain ⟨own, ownRefused, ownBelow⟩ := least added.entries m other added.ascending outcome
      have accepts (left : String)
          (allowed : ∃ result, absorbAt combine left (m.get? left) (added.get? left) = .ok result) :
          ¬ ∃ fault, absorbAt combine left (m.get? left) (added.get? left) = .error fault := by
        rintro ⟨fault, failed⟩
        obtain ⟨result, accepted⟩ := allowed
        exact nomatch accepted.symm.trans failed
      have same : own = name := least_unique _ own name ⟨other, ownRefused⟩ ⟨fault, refused⟩
        (fun left less => accepts left (ownBelow left less)) fun left less => accepts left (below left less)
      subst same
      rw [Except.error.inj (ownRefused.symm.trans refused)]

theorem absorbAt_eq_error (combine : String → α → α → Except ε α) (name : String) (held incoming : Option α)
    (fault : ε) : absorbAt combine name held incoming = .error fault ↔
      ∃ left right, held = some left ∧ incoming = some right ∧ combine name left right = .error fault := by
  cases incoming with
  | none => simp
  | some right =>
      cases held with
      | none => simp [absorbAt]
      | some left => cases combined : combine name left right <;> simp [absorbAt, combined, Except.map]

theorem absorbAt_isSome (combine : String → α → α → Except ε α) (name : String)
    (held incoming result : Option α) (own : absorbAt combine name held incoming = .ok result) :
    result.isSome = (held.isSome || incoming.isSome) := by
  cases incoming with
  | none =>
      rw [absorbAt_none] at own
      rw [← Except.ok.inj own]
      exact (Bool.or_false _).symm
  | some incoming =>
      cases held with
      | none => rw [← Except.ok.inj own]; rfl
      | some held =>
          cases combined : combine name held incoming with
          | error fault => rw [absorbAt, combined] at own; cases own
          | ok value => rw [absorbAt, combined] at own; rw [← Except.ok.inj own]; rfl

theorem mem_keys_absorb (combine : String → α → α → Except ε α) (m added result : NameMap α)
    (absorbed : m.absorb combine added = .ok result) (name : String) :
    name ∈ result.keys ↔ name ∈ m.keys ∨ name ∈ added.keys := by
  have own := absorbAt_isSome combine name _ _ _ ((absorb_eq_ok combine m added result).mp absorbed name)
  rw [mem_keys, mem_keys, mem_keys, own, Bool.or_eq_true]

-- Where a value may be missing, and a missing one gives way to the other, it does not matter whether
-- a name is absent or without a value.
theorem absorbAt_join (combine : String → Option α → Option α → Except ε (Option α)) (name : String)
    (given : ∀ held, combine name held none = .ok held)
    (fresh : ∀ incoming, combine name none (some incoming) = .ok (some incoming))
    (held incoming result : Option (Option α)) (own : absorbAt combine name held incoming = .ok result) :
    combine name held.join incoming.join = .ok result.join := by
  cases incoming with
  | none =>
      rw [absorbAt_none] at own
      rw [← Except.ok.inj own]
      exact given held.join
  | some incoming =>
      cases held with
      | none =>
          rw [← Except.ok.inj own]
          cases incoming with
          | none => exact given none
          | some value => exact fresh value
      | some held =>
          cases combined : combine name held incoming with
          | error fault => rw [absorbAt, combined] at own; cases own
          | ok value =>
              rw [absorbAt, combined] at own
              rw [← Except.ok.inj own]
              exact combined

end ClassProgression.NameMap
