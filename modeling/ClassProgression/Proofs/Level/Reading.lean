import ClassProgression.Proofs.Markup.Levels

namespace ClassProgression.Level

def isBreak (c : Char) : Bool := c == ' ' || c == ','

-- The words of a text that open with a digit.
def numerals (text : List Char) : List (List Char) :=
  (text.splitOnP isBreak).filter fun word => word.head?.any Char.isDigit

def number (word : List Char) : Nat := Nat.ofDigitChars 10 (word.takeWhile Char.isDigit) 0

-- The ending that the digits of a number take: "th" if the tens digit is one, else by the last digit.
def ending (digits : List Char) : List Char :=
  if digits.reverse[1]? = some '1' then ['t', 'h']
  else match digits.reverse[0]? with
    | some '1' => ['s', 't']
    | some '2' => ['n', 'd']
    | some '3' => ['r', 'd']
    | _ => ['t', 'h']

def spelled (level : Level) : List Char :=
  let digits := Nat.toDigits 10 level.toNat
  digits ++ ending digits

section Ordinals

theorem reverse_toDigits (n : Nat) : ∃ others, (Nat.toDigits 10 n).reverse = Nat.digitChar (n % 10) :: others := by
  by_cases small : n < 10
  · exact ⟨[], by rw [Nat.toDigits_of_lt_base small, Nat.mod_eq_of_lt small]; rfl⟩
  · rw [Nat.toDigits_of_base_le (by decide) (by omega), List.reverse_append]
    exact ⟨_, rfl⟩

theorem tensDigit_toDigits (n : Nat) : (Nat.toDigits 10 n).reverse[1]? = some '1' ↔ n / 10 % 10 = 1 := by
  have isOne : ∀ digit < 10, Nat.digitChar digit = '1' ↔ digit = 1 := by decide
  by_cases small : n < 10
  · rw [Nat.toDigits_of_lt_base small]
    simp only [List.reverse_singleton, List.getElem?_cons_succ, List.getElem?_nil, reduceCtorEq, false_iff]
    omega
  · obtain ⟨others, tens⟩ := reverse_toDigits (n / 10)
    rw [Nat.toDigits_of_base_le (by decide) (by omega), List.reverse_append, tens]
    simp only [List.reverse_singleton, List.singleton_append, List.getElem?_cons_succ, List.getElem?_cons_zero,
      Option.some.injEq]
    exact isOne _ (Nat.mod_lt _ (by decide))

theorem ending_toDigits (n : Nat) : ending (Nat.toDigits 10 n) = (suffix n).toList := by
  obtain ⟨others, last⟩ := reverse_toDigits n
  have below : n % 10 < 10 := Nat.mod_lt n (by decide)
  unfold ending suffix
  by_cases tens : n / 10 % 10 = 1
  · rw [if_pos ((tensDigit_toDigits n).mpr tens), if_pos tens]
    rfl
  · rw [if_neg (mt (tensDigit_toDigits n).mp tens), if_neg tens, last, List.getElem?_cons_zero]
    generalize n % 10 = digit at below
    interval_cases digit <;> rfl

theorem ordinal_eq_spelled (level : Level) : level.ordinal.toList = spelled level := by
  rw [ordinal, String.toList_append, Nat.repr_eq_ofList_toDigits, String.toList_ofList, ← ending_toDigits]
  rfl

theorem ending_letters (digits : List Char) : ∀ c ∈ ending digits, c.isDigit = false ∧ isBreak c = false := by
  unfold ending
  split
  · simp [isBreak]
  · split <;> simp [isBreak]

@[simp]
theorem number_spelled (level : Level) : number (spelled level) = level.toNat := by
  have digits : ∀ c ∈ Nat.toDigits 10 level.toNat, c.isDigit = true := fun c member =>
    Nat.isDigit_of_mem_toDigits (by decide) (by decide) member
  have stops : (ending (Nat.toDigits 10 level.toNat)).takeWhile Char.isDigit = [] := by
    refine List.takeWhile_eq_nil_iff.mpr fun inhabited => ?_
    simp [(ending_letters _ _ (List.getElem_mem inhabited)).1]
  rw [number, spelled, List.takeWhile_append_of_pos digits, stops, List.append_nil, Nat.ofDigitChars_ten_toDigits]

theorem spelled_plain (level : Level) : ∀ c ∈ spelled level, isBreak c = false := by
  intro c member
  rcases List.mem_append.mp member with digit | letter
  · have isDigit := Nat.isDigit_of_mem_toDigits (by decide) (by decide) digit
    have notBreak : ∀ other, isBreak other = true → other.isDigit = false := by
      intro other breaks
      simp only [isBreak, Bool.or_eq_true, beq_iff_eq] at breaks
      rcases breaks with rfl | rfl <;> rfl
    exact Bool.eq_false_iff.mpr fun breaks => by simp [notBreak c breaks] at isDigit
  · exact (ending_letters _ c letter).2

@[simp]
theorem numerals_spelled (level : Level) : numerals (spelled level) = [spelled level] := by
  have opens : (spelled level).head?.any Char.isDigit = true := by
    obtain ⟨first, rest, digits⟩ := List.exists_cons_of_ne_nil (Nat.toDigits_ne_nil (n := level.toNat) (b := 10))
    have isDigit : first.isDigit = true :=
      Nat.isDigit_of_mem_toDigits (b := 10) (by decide) (by decide) (digits ▸ List.mem_cons_self)
    simp [spelled, digits, isDigit]
  rw [numerals, List.splitOnP_eq_singleton (spelled_plain level), List.filter_singleton, opens]
  rfl

end Ordinals

section Phrases

theorem numerals_append_break (upper lower : List Char) (c : Char) (breaks : isBreak c = true) :
    numerals (upper ++ c :: lower) = numerals upper ++ numerals lower := by
  rw [numerals, List.splitOnP_append_cons upper lower breaks, List.filter_append]
  rfl

theorem numerals_between (upper words lower : List Char) (opens closes : Char) (opening : isBreak opens = true)
    (closing : isBreak closes = true) (silent : numerals words = []) :
    numerals (upper ++ (opens :: (words ++ [closes])) ++ lower) = numerals upper ++ numerals lower := by
  have text : upper ++ (opens :: (words ++ [closes])) ++ lower = upper ++ opens :: (words ++ closes :: lower) := by simp
  rw [text, numerals_append_break upper _ opens opening, numerals_append_break words lower closes closing, silent]
  rfl

@[simp]
theorem numerals_level (upper : List Char) : numerals (upper ++ " level".toList) = numerals upper := by
  have silent : numerals "level".toList = [] := by decide +kernel
  have words : " level".toList = ' ' :: "level".toList := by simp
  rw [words, numerals_append_break upper _ ' ' rfl, silent, List.append_nil]

@[simp]
theorem numerals_again (upper lower : List Char) :
    numerals (upper ++ " level and again at ".toList ++ lower) = numerals upper ++ numerals lower := by
  have words : " level and again at ".toList = ' ' :: ("level and again at".toList ++ [' ']) := by simp
  rw [words]
  exact numerals_between upper _ lower ' ' ' ' rfl rfl (by decide +kernel)

@[simp]
theorem numerals_and (upper lower : List Char) :
    numerals (upper ++ " and ".toList ++ lower) = numerals upper ++ numerals lower := by
  have words : " and ".toList = ' ' :: ("and".toList ++ [' ']) := by simp
  rw [words]
  exact numerals_between upper _ lower ' ' ' ' rfl rfl (by decide +kernel)

@[simp]
theorem numerals_commaAnd (upper lower : List Char) :
    numerals (upper ++ ", and ".toList ++ lower) = numerals upper ++ numerals lower := by
  have words : ", and ".toList = ',' :: (" and".toList ++ [' ']) := by simp
  rw [words]
  exact numerals_between upper _ lower ',' ' ' rfl rfl (by decide +kernel)

@[simp]
theorem numerals_comma (upper lower : List Char) :
    numerals (upper ++ ", ".toList ++ lower) = numerals upper ++ numerals lower := by
  have words : ", ".toList = ',' :: ([] ++ [' ']) := by simp
  rw [words]
  exact numerals_between upper [] lower ',' ' ' rfl rfl (by decide +kernel)

variable (parts : List String) (words : ∀ part ∈ parts, numerals part.toList = [part.toList])
include words

theorem numerals_intercalate : numerals (", ".intercalate parts).toList = parts.map String.toList := by
  induction parts with
  | nil => decide +kernel
  | cons first rest ih =>
      have opens := words first List.mem_cons_self
      have further := ih fun part later => words part (List.mem_cons_of_mem first later)
      cases rest with
      | nil => rw [String.intercalate_singleton, opens]; rfl
      | cons next more =>
          rw [String.intercalate_cons_cons, String.toList_append, String.toList_append, numerals_comma, opens, further]
          rfl

end Phrases

-- The four shapes of a phrase differ in what stands between the ordinals only.
theorem numerals_phrase (levels : List Level) (text : String) (phrased : phrase levels = .ok text) :
    numerals text.toList = levels.map spelled := by
  have words : ∀ part ∈ levels.map ordinal, numerals part.toList = [part.toList] := by
    intro part listed
    obtain ⟨level, _, rfl⟩ := List.mem_map.mp listed
    rw [ordinal_eq_spelled, numerals_spelled]
  have texts : levels.map spelled = (levels.map ordinal).map String.toList := by
    rw [List.map_map]
    exact List.map_congr_left fun level _ => (ordinal_eq_spelled level).symm
  rw [texts]
  unfold phrase at phrased
  generalize levels.map ordinal = ordinals at words phrased
  match ordinals with
  | [] => cases phrased
  | [only] =>
      rw [← Except.ok.inj phrased, String.toList_append, numerals_level, words only List.mem_cons_self]
      rfl
  | [first, second] =>
      simp only [List.forall_mem_cons] at words
      rw [← Except.ok.inj phrased]
      simp only [String.toList_append, numerals_level, numerals_again, words]
      rfl
  | [first, second, third] =>
      simp only [List.forall_mem_cons] at words
      rw [← Except.ok.inj phrased]
      simp only [String.toList_append, numerals_level, numerals_and, numerals_again, words]
      rfl
  | first :: second :: third :: fourth :: others =>
      obtain ⟨opens, later⟩ := List.forall_mem_cons.mp words
      have whole := Except.ok.inj phrased
      generalize given : second :: third :: fourth :: others = more at whole later ⊢
      have inhabited : more ≠ [] := given ▸ List.cons_ne_nil second _
      have middle := numerals_intercalate more.dropLast fun part listed => later part (List.dropLast_subset more listed)
      have last : more.getLastD "" = more.getLast inhabited := by
        rw [List.getLastD_eq_getLast?, List.getLast?_eq_some_getLast inhabited]
        rfl
      have closes := later _ (List.getLast_mem inhabited)
      have parts := congrArg (List.map String.toList) (List.dropLast_append_getLast inhabited)
      rw [List.map_append, List.map_singleton] at parts
      rw [← whole]
      simp only [String.toList_append, numerals_level, numerals_commaAnd, numerals_again, opens, middle, last, closes]
      rw [List.map_cons, ← parts, List.append_assoc, List.singleton_append]

-- Any list of levels, however long, with levels repeated or out of order.
theorem phrase_tells_levels (levels : List Level) (given : levels ≠ []) :
    ∃ text, phrase levels = .ok text ∧ numerals text.toList = levels.map spelled ∧
      ∀ others, phrase others = .ok text → others = levels := by
  obtain ⟨text, phrased⟩ := Markup.phrase_of_ne_nil levels given
  have words := numerals_phrase levels text phrased
  refine ⟨text, phrased, words, fun others same => ?_⟩
  have numbers := congrArg (List.map number) ((numerals_phrase others text same).symm.trans words)
  simp only [List.map_map, Function.comp_def, number_spelled] at numbers
  exact List.map_injective_iff.mpr (fun _ _ => UInt32.toNat_inj.mp) numbers

theorem repeated_levels_are_told :
    let levels : List Level := [21, 112, 3, 3, 11]
    let text := "21st level and again at 112th, 3rd, 3rd, and 11th level"
    levels ≠ [] ∧ phrase levels = .ok text ∧
      numerals text.toList = ["21st", "112th", "3rd", "3rd", "11th"].map String.toList ∧
      ∀ others, phrase others = .ok text → others = levels := by
  intro levels text
  obtain ⟨found, phrased, words, only⟩ := phrase_tells_levels levels (by decide)
  have said : phrase levels = .ok text := by decide +kernel
  cases said.symm.trans phrased
  have spelt : levels.map spelled = ["21st", "112th", "3rd", "3rd", "11th"].map String.toList := by decide +kernel
  exact ⟨by decide, said, words.trans spelt, only⟩

end ClassProgression.Level
