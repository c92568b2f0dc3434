import ClassProgression.Proofs.Command.StoredTable

namespace ClassProgression.Command

section Words

variable (vocabulary : Vocabulary)

-- A longer line makes no difference, and an option with a value is one of the vocabulary.
theorem longOption?_found (name : String) (attached : Option String) (rest : List String) (word : Word)
    (left : List String) (found : longOption? vocabulary name attached rest = some (word, left)) :
    (∀ more, longOption? vocabulary name attached (rest ++ more) = some (word, left ++ more)) ∧
      ∀ other value, word = .option other value → other ∈ vocabulary.valued := by
  unfold longOption? at found ⊢
  split_ifs at found ⊢ with flag unattached valued
  · cases found
    exact ⟨fun _ => rfl, fun _ _ same => by cases same⟩
  · cases attached with
    | some value =>
        cases found
        exact ⟨fun _ => rfl, fun _ _ same => by cases same; exact valued⟩
    | none =>
        cases rest with
        | nil => cases found
        | cons value rest =>
            simp only [List.cons_append] at found ⊢
            split_ifs at found ⊢
            cases found
            exact ⟨fun _ => rfl, fun _ _ same => by cases same; exact valued⟩

theorem cluster?_flags (letters : List Char) (words : List Word) (found : cluster? vocabulary letters = some words) :
    ∀ word ∈ words, ∃ name, word = .flag name := by
  induction letters generalizing words with
  | nil =>
      cases found
      intro word member
      cases member
  | cons letter rest ih =>
      simp only [cluster?, Option.bind_eq_bind, Option.bind_eq_some_iff] at found
      obtain ⟨name, known, found⟩ := found
      split_ifs at found with last
      · cases found
        exact List.forall_mem_singleton.mpr ⟨name, rfl⟩
      · obtain ⟨others, read, same⟩ := Option.bind_eq_some_iff.mp found
        cases same
        exact List.forall_mem_cons.mpr ⟨⟨name, rfl⟩, ih others read⟩

theorem nextWords?_found (first : String) (rest : List String) (words : List Word) (left : List String)
    (found : nextWords? vocabulary first rest = some (words, left)) :
    (∀ more, nextWords? vocabulary first (rest ++ more) = some (words, left ++ more)) ∧
      ∀ name value, .option name value ∈ words → name ∈ vocabulary.valued := by
  unfold nextWords? at found ⊢
  split at found
  · obtain ⟨⟨word, behind⟩, option, same⟩ := Option.map_eq_some_iff.mp found
    cases same
    obtain ⟨longer, valued⟩ := longOption?_found vocabulary _ _ rest word behind option
    refine ⟨fun more => ?_, fun name value member => valued name value (List.mem_singleton.mp member).symm⟩
    exact Option.map_eq_some_iff.mpr ⟨(word, behind ++ more), longer more, rfl⟩
  · cases found
    exact ⟨fun _ => rfl, fun _ _ member => by cases List.mem_singleton.mp member⟩
  · obtain ⟨words, read, same⟩ := Option.map_eq_some_iff.mp found
    cases same
    refine ⟨fun more => by rw [read]; rfl, fun name value member => ?_⟩
    obtain ⟨flag, same⟩ := cluster?_flags vocabulary _ words read _ member
    cases same
  · cases found
    exact ⟨fun _ => rfl, fun _ _ member => by cases List.mem_singleton.mp member⟩

end Words

-- The only option with a value in front of a command is the one for the settings.
def Configures (words : List Word) : Prop := ∀ name value, .option name value ∈ words → name = "config"

theorem Configures.append (words : List Word) (configured : Configures words) (first : String) (rest left : List String)
    (more : List Word) (found : nextWords? leadingVocabulary first rest = some (more, left)) :
    Configures (words ++ upToVersion more) := by
  intro name value member
  rcases List.mem_append.mp member with old | new
  · exact configured name value old
  · have valued := (nextWords?_found leadingVocabulary first rest more left found).2
    exact List.mem_singleton.mp (valued name value ((List.takeWhile_sublist _).subset new))

section Insertion

variable (before after : List Word) (name : String)

theorem value?_flag (key : String) : value? (before ++ .flag name :: after) key = value? (before ++ after) key := by
  simp only [value?, List.findSome?_append, List.findSome?_cons]

theorem hasFlag_flag : hasFlag (before ++ .flag name :: after) name = true := by
  simp [hasFlag]

theorem inOrder_flag (ordered : inOrder (before ++ after) = true)
    (fresh : some name ∉ (before ++ after).map Word.name?) : inOrder (before ++ .flag name :: after) = true := by
  simp only [inOrder, noneRepeated, value?_flag, Bool.and_eq_true, decide_eq_true_eq] at ordered ⊢
  refine ⟨?_, ordered.2⟩
  have names : (before ++ .flag name :: after).filterMap Word.name? =
      before.filterMap Word.name? ++ name :: after.filterMap Word.name? := List.filterMap_append
  rw [names, List.nodup_middle, List.nodup_cons, ← List.filterMap_append]
  refine ⟨?_, ordered.1⟩
  intro member
  obtain ⟨word, given, named⟩ := List.mem_filterMap.mp member
  exact fresh (List.mem_map.mpr ⟨word, given, named⟩)

end Insertion

theorem Configures.fresh (words : List Word) (configured : Configures words) (quiet : hasFlag words "verbose" = false) :
    some "verbose" ∉ words.map Word.name? := by
  intro member
  obtain ⟨word, given, named⟩ := List.mem_map.mp member
  cases word with
  | flag name =>
      cases named
      exact absurd (List.any_eq_true.mpr ⟨_, given, decide_eq_true rfl⟩) (ne_true_of_eq_false quiet)
  | option name value =>
      have verbose : name = "verbose" := Option.some.inj named
      exact absurd (verbose.symm.trans (configured name value given)) (by decide)
  | plain text => cases named

section Requests

variable (environment : Option String) (leading : List Word) (first : String) (rest : List String) (unmarked : first ≠ "--")
include unmarked

theorem requestFrom?_command (name : String) (left : List String)
    (found : nextWords? leadingVocabulary first rest = some ([.plain name], left)) :
    requestFrom? environment leading (first :: rest) = (invocation? environment leading name left).map .invoke := by
  rw [requestFrom?, if_neg unmarked]
  split
  case h_1 missing => cases missing.symm.trans found
  case h_2 read =>
    cases read.symm.trans found
    rfl
  case h_3 other read =>
    cases read.symm.trans found
    exact absurd rfl (other name)

theorem requestFrom?_option (words : List Word) (left : List String) (options : ∀ name, words ≠ [.plain name])
    (found : nextWords? leadingVocabulary first rest = some (words, left)) :
    requestFrom? environment leading (first :: rest) =
      if ¬ inOrder (leading ++ upToVersion words) then none
      else if hasFlag words "version" then some .version
      else requestFrom? environment (leading ++ upToVersion words) left := by
  rw [requestFrom?, if_neg unmarked]
  split
  case h_1 missing => cases missing.symm.trans found
  case h_2 name _ read =>
    cases read.symm.trans found
    exact absurd rfl (options name)
  case h_3 read =>
    cases read.symm.trans found
    rfl

end Requests

theorem invocation?_eq_some (environment : Option String) (leading : List Word) (name : String) (line : List String)
    (invocation : Invocation) : invocation? environment leading name line = some invocation ↔
    ∃ command words action before behind around, command? name = some command ∧ words? command.1 line = some words ∧
      command.2 words = some action ∧ optional? path? (value? leading "config") = some before ∧
      optional? path? (value? words "config") = some behind ∧
      (if before.isSome && behind.isSome then some none else optional? path? environment) = some around ∧
      noneRepeated words = true ∧
      ⟨action, hasFlag leading "verbose" || hasFlag words "verbose", (behind.or before).or around⟩ = invocation := by
  have joined (both : Bool) (asked : Option (Option String)) (next : Option String → Option Invocation) :
      (if both then (some none).bind next else asked.bind next) = (if both then some none else asked).bind next := by
    cases both <;> rfl
  unfold invocation?
  simp only [Option.bind_eq_bind, joined, Option.bind_eq_some_iff]
  constructor
  · rintro ⟨command, known, words, read, action, acted, before, path, behind, other, around, found, given⟩
    rcases Option.ite_none_right_eq_some.mp given with ⟨distinct, same⟩
    exact ⟨command, words, action, before, behind, around, known, read, acted, path, other, found, distinct,
      Option.some.inj same⟩
  · rintro ⟨command, words, action, before, behind, around, known, read, acted, path, other, found, distinct, rfl⟩
    exact ⟨command, known, words, read, action, acted, before, path, behind, other, around, found, if_pos distinct⟩

theorem invocation?_flag (environment : Option String) (before after : List Word) (name : String) (line : List String)
    (invocation : Invocation) (given : invocation? environment (before ++ after) name line = some invocation) :
    (invocation.verbose = false → hasFlag (before ++ after) "verbose" = false) ∧
      invocation? environment (before ++ .flag "verbose" :: after) name line = some {invocation with verbose := true} := by
  obtain ⟨command, words, action, led, behind, around, known, read, acted, path, other, found, distinct, same⟩ :=
    (invocation?_eq_some _ _ _ _ _).mp given
  cases same
  refine ⟨fun quiet => (Bool.or_eq_false_iff.mp quiet).1, (invocation?_eq_some _ _ _ _ _).mpr ?_⟩
  rw [value?_flag, hasFlag_flag]
  exact ⟨command, words, action, led, behind, around, known, read, acted, path, other, found, distinct, rfl⟩

-- Induction on the reading: the flag goes along with what has been read so far, wherever it stands there.
theorem requestFrom?_flag (environment : Option String) (leading : List Word) (line : List String)
    (invocation : Invocation) (quiet : invocation.verbose = false) (configured : Configures leading)
    (requested : requestFrom? environment leading line = some (.invoke invocation)) :
    hasFlag leading "verbose" = false ∧ ∀ before after, leading = before ++ after →
      requestFrom? environment (before ++ .flag "verbose" :: after) line = some (.invoke {invocation with verbose := true}) := by
  fun_induction requestFrom? environment leading line with
  | case1 | case2 | case3 | case5 | case6 => cases requested
  | case4 leading first rest unmarked name left found =>
      obtain ⟨_, given, same⟩ := Option.map_eq_some_iff.mp requested
      cases same
      refine ⟨(invocation?_flag environment [] leading name left invocation given).1 quiet, ?_⟩
      rintro before after rfl
      have flagged := (invocation?_flag environment before after name left invocation given).2
      rw [requestFrom?_command environment _ first rest unmarked name left found, flagged]
      rfl
  | case7 leading first rest unmarked words left options found reached ordered unversioned ih =>
      have further := configured.append leading first rest left words found
      obtain ⟨fresh, inserted⟩ := ih further requested
      have unflagged := Bool.or_eq_false_iff.mp (List.any_append.symm.trans fresh)
      refine ⟨unflagged.1, ?_⟩
      rintro before after rfl
      have regrouped : reached = before ++ (after ++ upToVersion words) := List.append_assoc _ _ _
      have still : inOrder (before ++ .flag "verbose" :: (after ++ upToVersion words)) = true := by
        have absent := Configures.fresh reached further fresh
        rw [regrouped] at ordered absent
        exact inOrder_flag _ _ _ (not_not.mp ordered) absent
      rw [requestFrom?_option environment _ first rest unmarked words left options found, List.append_assoc,
        List.cons_append, if_neg (not_not.mpr still), if_neg unversioned]
      exact inserted before _ regrouped

theorem requestFrom?_front (environment : Option String) (front : List String) (words : List Word)
    (read : words? leadingVocabulary front = some words) (options : plainWords words = []) (leading : List Word)
    (configured : Configures leading) (ordered : inOrder leading = true) (back : List String) (invocation : Invocation)
    (requested : requestFrom? environment leading (front ++ back) = some (.invoke invocation)) :
    ∃ reached, Configures reached ∧ inOrder reached = true ∧
      ∀ line, requestFrom? environment leading (front ++ line) = requestFrom? environment reached line := by
  fun_induction words? leadingVocabulary front generalizing words leading with
  | case1 => exact ⟨leading, configured, ordered, fun _ => rfl⟩
  | case2 rest =>
      rw [List.cons_append, requestFrom?, if_pos rfl] at requested
      cases requested
  | case3 => cases read
  | case4 first rest unmarked heads left found ih =>
      obtain ⟨later, further, same⟩ := Option.map_eq_some_iff.mp read
      cases same
      obtain ⟨optionsHere, optionsBehind⟩ := List.append_eq_nil_iff.mp (List.filterMap_append.symm.trans options)
      have longer := (nextWords?_found leadingVocabulary first rest heads left found).1
      have alone (name : String) : heads ≠ [.plain name] := by
        rintro rfl
        cases optionsHere
      have step (line : List String) := requestFrom?_option environment leading first (rest ++ line) unmarked heads
        (left ++ line) alone (longer line)
      rw [List.cons_append, step] at requested
      split_ifs at requested with settled version
      · cases requested
      · obtain ⟨reached, configured, ordered, same⟩ := ih later further optionsBehind (leading ++ upToVersion heads)
          (configured.append leading first rest left heads found) settled requested
        refine ⟨reached, configured, ordered, fun line => ?_⟩
        rw [List.cons_append, step, if_neg (not_not.mpr settled), if_neg version, same]

theorem request?_verbose (environment : Option String) (front back : List String) (words : List Word)
    (read : words? leadingVocabulary front = some words) (options : plainWords words = []) (invocation : Invocation)
    (quiet : invocation.verbose = false) (requested : request? environment (front ++ back) = some (.invoke invocation)) :
    request? environment (front ++ "-v" :: back) = some (.invoke {invocation with verbose := true}) := by
  have unread : Configures [] := fun _ _ member => by cases member
  obtain ⟨reached, configured, ordered, same⟩ :=
    requestFrom?_front environment front words read options [] unread rfl back invocation requested
  rw [request?, same] at requested
  obtain ⟨fresh, inserted⟩ := requestFrom?_flag environment reached back invocation quiet configured requested
  have letter : nextWords? leadingVocabulary "-v" back = some ([.flag "verbose"], back) := rfl
  have still : inOrder (reached ++ [.flag "verbose"]) = true := by
    rw [← List.append_nil reached] at ordered fresh configured
    exact inOrder_flag _ _ _ ordered (configured.fresh _ fresh)
  rw [request?, same, requestFrom?_option environment reached "-v" back (by decide) _ back (by simp) letter]
  have kept : upToVersion [.flag "verbose"] = [.flag "verbose"] := rfl
  rw [kept, if_neg (not_not.mpr still), if_neg (by decide)]
  exact inserted reached [] (List.append_nil reached).symm

end ClassProgression.Command
