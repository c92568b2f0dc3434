import ClassProgression.Proofs.Markup.Deletion
import ClassProgression.Proofs.Markup.Pattern

namespace ClassProgression.Markup

open Text

def width (text : List Char) : Nat := (encode text).length

section Widths

theorem width_eq (text : List Char) : width text = (String.ofList text).utf8ByteSize := length_encode text

@[simp]
theorem width_append (left right : List Char) : width (left ++ right) = width left + width right := by
  simp [width]

@[simp]
theorem width_cons (c : Char) (text : List Char) : width (c :: text) = c.utf8Size + width text := by
  rw [width, encode, List.flatMap_cons, List.length_append, String.length_utf8EncodeChar]
  rfl

theorem width_le_of_suffix (part text : List Char) (suffix : part <:+ text) : width part ≤ width text := by
  obtain ⟨before, rfl⟩ := suffix
  simp

theorem valid_width (left right : List Char) :
    (String.Pos.Raw.mk (width left)).IsValid (String.ofList (left ++ right)) := by
  refine String.Pos.Raw.isValid_iff_exists_append.mpr ⟨String.ofList left, String.ofList right, String.ofList_append, ?_⟩
  rw [width_eq]
  rfl

end Widths

def occurrence? (pattern : List UInt8) : List UInt8 → Option Nat
  | [] => if pattern.isPrefixOf [] then some 0 else none
  | byte :: rest => if pattern.isPrefixOf (byte :: rest) then some 0 else (occurrence? pattern rest).map (· + 1)

section Occurrences

theorem encode_prefix_iff (pattern text : List Char) : encode pattern <+: encode text ↔ pattern <+: text := by
  constructor
  · rintro ⟨more, whole⟩
    refine List.isPrefix_of_utf8Encode_append_eq_utf8Encode more.toByteArray ?_
    rw [List.utf8Encode, List.utf8Encode, ← List.toByteArray_append]
    exact congrArg List.toByteArray whole
  · rintro ⟨more, rfl⟩
    simp

theorem encodeChar_split (c : Char) : ∃ first later, String.utf8EncodeChar c = first :: later ∧
    first.IsUTF8FirstByte ∧ ∀ byte ∈ later, ¬ byte.IsUTF8FirstByte := by
  have written : 0 < (String.utf8EncodeChar c).length := String.length_utf8EncodeChar c ▸ c.utf8Size_pos
  obtain ⟨first, later, parts⟩ := List.exists_cons_of_length_pos written
  refine ⟨first, later, parts, ?_, fun byte member => ?_⟩
  · have begins := @UInt8.isUTF8FirstByte_getElem_zero_utf8EncodeChar c
    simpa only [parts, List.getElem_cons_zero] using begins
  · obtain ⟨index, inside, rfl⟩ := List.getElem_of_mem member
    have within : index + 1 < (String.utf8EncodeChar c).length := by
      rw [parts]
      exact Nat.succ_lt_succ inside
    have begins := @UInt8.isUTF8FirstByte_getElem_utf8EncodeChar c (index + 1) within
    simp only [parts, List.getElem_cons_succ, Nat.succ_ne_zero, iff_false] at begins
    exact begins

-- Nothing begins within a character.
theorem occurrence?_later (c : Char) (pattern : List Char) (later rest : List UInt8)
    (goesOn : ∀ byte ∈ later, ¬ byte.IsUTF8FirstByte) : occurrence? (encode (c :: pattern)) (later ++ rest) =
      (occurrence? (encode (c :: pattern)) rest).map (· + later.length) := by
  induction later with
  | nil => simp
  | cons byte more ih =>
      obtain ⟨first, others, parts, begins, _⟩ := encodeChar_split c
      have elsewhere : (encode (c :: pattern)).isPrefixOf (byte :: (more ++ rest)) = false := by
        rw [encode, List.flatMap_cons, parts, List.cons_append, List.isPrefixOf_cons_cons, Bool.and_eq_false_iff]
        exact .inl (beq_false_of_ne fun same => goesOn byte List.mem_cons_self (same ▸ begins))
      rw [List.cons_append, occurrence?, if_neg (ne_true_of_eq_false elsewhere),
        ih fun other member => goesOn other (List.mem_cons_of_mem byte member), Option.map_map]
      rfl

theorem occurrence?_encode (c : Char) (pattern text : List Char) : occurrence? (encode (c :: pattern)) (encode text) =
    (splitBefore? (c :: pattern) text).map fun parts => width parts.1 := by
  induction text with
  | nil =>
      obtain ⟨first, others, parts, _⟩ := encodeChar_split c
      rw [encode, List.flatMap_cons, parts]
      rfl
  | cons d rest ih =>
      obtain ⟨first, later, parts, _, goesOn⟩ := encodeChar_split d
      have whole : encode (d :: rest) = first :: (later ++ encode rest) := by
        rw [encode, List.flatMap_cons, parts]
        rfl
      have wide : d.utf8Size = later.length + 1 := by
        rw [← String.length_utf8EncodeChar, parts, List.length_cons]
      have alike : (encode (c :: pattern)).isPrefixOf (first :: (later ++ encode rest)) =
          startsWith (c :: pattern) (d :: rest) := by
        rw [Bool.eq_iff_iff, startsWith, List.isPrefixOf_iff_prefix, List.isPrefixOf_iff_prefix, ← whole, encode_prefix_iff]
      rw [whole, occurrence?, alike, splitBefore?]
      split
      · rfl
      · rw [occurrence?_later c pattern later _ goesOn, ih, Option.map_map, Option.map_map, Option.map_map]
        refine congrArg (Option.map · _) (funext fun split => ?_)
        simp only [Function.comp_apply, width_cons, wide]
        omega

end Occurrences

-- How many openers stand in a text, whether or not a tag comes of them.
def openers (text : List Char) : Nat := text.tails.countP (startsWith opener)

section Openers

variable (before later : List Char) (c : Char)

theorem openers_cons : openers (c :: later) = openers later + if startsWith opener (c :: later) then 1 else 0 := by
  rw [openers, List.tails_cons, List.countP_cons]
  rfl

theorem openers_le_of_suffix (part text : List Char) (suffix : part <:+ text) : openers part ≤ openers text := by
  obtain ⟨before, rfl⟩ := suffix
  induction before with
  | nil => exact Nat.le_refl _
  | cons c more ih =>
      rw [List.cons_append, openers_cons]
      exact Nat.le_add_right_of_le ih

theorem openers_lt (opens : startsWith opener (c :: later) = true) : openers later < openers (before ++ c :: later) := by
  have here : openers (c :: later) = openers later + 1 := by rw [openers_cons, if_pos opens]
  have further := openers_le_of_suffix (c :: later) (before ++ c :: later) (List.suffix_append _ _)
  rw [here] at further
  exact further

theorem allowed_opener (after : List Char) (allowance : Nat) (enough : openers (before ++ (opener ++ after)) ≤ allowance) :
    ∃ fewer, allowance = fewer + 1 ∧ openers (opener.tail ++ after) ≤ fewer := by
  have behind : openers (opener.tail ++ after) < allowance :=
    Nat.lt_of_lt_of_le (openers_lt before (opener.tail ++ after) '\x60' rfl) enough
  exact ⟨allowance - 1, by omega, by omega⟩

end Openers

namespace Sliced

inductive Halt where
  | fault (cause : TagFault)
  -- A slice that reaches out of its text, or begins or ends within a character.
  | misplaced
  -- A loop has been through all the rounds it was allowed and would go on.
  | unfinished
deriving DecidableEq

end Sliced

abbrev Sliced := Except Sliced.Halt

namespace Sliced

def slice (text : String) (start stop : Nat) : Sliced String :=
  if inside : (String.Pos.Raw.mk start).IsValid text ∧ (String.Pos.Raw.mk stop).IsValid text ∧ start ≤ stop then
    .ok (text.extract (text.pos ⟨start⟩ inside.1) (text.pos ⟨stop⟩ inside.2.1))
  else .error .misplaced

def offset? (pattern : List Char) (text : String) : Option Nat := occurrence? (encode pattern) (bytes text)

def lineFrom (text : String) (start : Nat) : Sliced String := do
  let behind ← slice text start text.utf8ByteSize
  slice text start ((Bytes.firstNewline? (bytes behind)).elim text.utf8ByteSize (start + ·))

-- Where the name on a line ends. It has at least one character, of whatever width.
def nameEnd? (line : String) : Sliced (Option Nat) :=
  match line.toList with
  | [] => return none
  | first :: _ => do
      let rest ← slice line first.utf8Size line.utf8ByteSize
      return (offset? closer rest).map (first.utf8Size + ·)

def nameAt? (text : String) (start : Nat) : Sliced (Option String) := do
  let line ← lineFrom text start
  (← nameEnd? line).mapM fun length => slice text start (start + length)

structure Span where
  name : String
  start : Nat
  stop : Nat
deriving DecidableEq

-- From opener to opener. `allowance` is how many of them may be tried.
def findTag (text : String) (allowance search : Nat) : Sliced (Option Span) := do
  let ahead ← slice text search text.utf8ByteSize
  match offset? opener ahead with
  | none => return none
  | some offset =>
      match allowance with
      | 0 => throw .unfinished
      | allowance + 1 =>
          let start := search + offset
          match ← nameAt? text (start + width opener) with
          | some name => return some ⟨name, start, start + width opener + name.utf8ByteSize + width closer⟩
          | none => findTag text allowance (start + 1)
termination_by structural allowance

def deleteLine (text : String) (start stop : Nat) : Sliced (String × Nat) := do
  let left ← slice text 0 start
  let right ← slice text stop text.utf8ByteSize
  let upper ← (Bytes.lastNewline? (bytes left)).mapM fun index => slice left 0 index
  let lower ← (Bytes.firstNewline? (bytes right)).mapM fun index => slice right (index + 1) right.utf8ByteSize
  let kept := upper.getD "" ++ if upper.isSome && lower.isSome then "\n" else ""
  return (kept ++ lower.getD "", kept.utf8ByteSize)

def edit (text : String) (tag : Span) : Resolution → Sliced (String × Nat)
  | .replace value => do
      let before ← slice text 0 tag.start
      let after ← slice text tag.stop text.utf8ByteSize
      return (before ++ String.ofList value ++ after, tag.start + width value)
  | .deleteLine => deleteLine text tag.start tag.stop

def lineNumber (text : String) (position : Nat) : Sliced Nat := do
  let above ← slice text 0 position
  return (bytes above).count Bytes.newline + 1

section Slices

@[simp]
theorem ok_bind (value : α) (next : α → Sliced β) : ((.ok value : Sliced α) >>= next) = next value := rfl

variable (left middle right text : List Char) (position : Nat)

@[simp]
theorem slice_middle : slice (String.ofList (left ++ middle ++ right)) (width left) (width (left ++ middle)) =
    .ok (String.ofList middle) := by
  have starts := valid_width left (middle ++ right)
  have stops := valid_width (left ++ middle) right
  have size (text : List Char) : text.utf8Encode.size = width text := by
    rw [width_eq, ← String.size_toByteArray, String.toByteArray_ofList]
  have part : (left ++ middle ++ right).utf8Encode.extract (width left + 0) (width (left ++ middle)) =
      middle.utf8Encode := by
    rw [List.append_assoc, List.utf8Encode_append, List.utf8Encode_append, width_append, ← size, ← size,
      ByteArray.extract_append_size_add, ByteArray.extract_append_eq_left rfl]
  rw [← List.append_assoc] at starts
  rw [slice, dif_pos ⟨starts, stops, by simp⟩]
  refine congrArg Except.ok (String.toByteArray_inj.mp ?_)
  rw [String.toByteArray_extract, String.toByteArray_ofList, String.toByteArray_ofList]
  exact part

@[simp]
theorem slice_behind : slice (String.ofList (left ++ right)) (width left) (String.ofList (left ++ right)).utf8ByteSize =
    .ok (String.ofList right) := by
  have behind := slice_middle left right []
  rwa [List.append_nil, width_eq (left ++ right)] at behind

@[simp]
theorem slice_take : slice (String.ofList text) 0 (width (text.take position)) =
    .ok (String.ofList (text.take position)) := by
  have before := slice_middle [] (text.take position) (text.drop position)
  rwa [List.nil_append, List.take_append_drop] at before

@[simp]
theorem slice_drop : slice (String.ofList text) (width (text.take position)) (String.ofList text).utf8ByteSize =
    .ok (String.ofList (text.drop position)) := by
  have behind := slice_behind (text.take position) (text.drop position)
  rwa [List.take_append_drop] at behind

@[simp]
theorem lineNumber_eq : lineNumber (String.ofList text) (width (text.take position)) =
    .ok (Markup.lineNumber text position) := by
  simp [lineNumber, bytes_eq_encode, count_encode, Markup.lineNumber]

end Slices

section Finding

theorem offset?_eq (pattern text : List Char) (inhabited : pattern ≠ []) : offset? pattern (String.ofList text) =
    (splitBefore? pattern text).map fun parts => width parts.1 := by
  obtain ⟨c, more, rfl⟩ := List.exists_cons_of_ne_nil inhabited
  simp [offset?, bytes_eq_encode, occurrence?_encode]

@[simp]
theorem lineFrom_eq (left right : List Char) : lineFrom (String.ofList (left ++ right)) (width left) =
    .ok (String.ofList (right.takeWhile (· ≠ newline))) := by
  obtain ⟨kept, cut, split⟩ := FirstLineCut.exists right
  rw [lineFrom, slice_behind, ok_bind, bytes_eq_encode, String.toList_ofList]
  cases split with
  | cut line _ plain =>
      have middle := slice_middle left line (newline :: kept)
      rw [width_append, List.append_assoc] at middle
      rw [Bytes.firstNewline?_encode line kept plain, takeWhile_newline, takeWhile_plain line plain]
      exact middle
  | whole _ plain =>
      rw [Bytes.firstNewline?_none _ (mt (newline_mem_encode right).mp plain), takeWhile_plain right plain]
      exact slice_behind left right

theorem nameEnd?_eq (line : List Char) : nameEnd? (String.ofList line) = .ok ((nameIn? line).map width) := by
  rw [nameEnd?, String.toList_ofList]
  cases line with
  | nil => rfl
  | cons first rest =>
      have behind := slice_behind [first] rest
      rw [width_cons first []] at behind
      change slice (String.ofList (first :: rest)) first.utf8Size (String.ofList (first :: rest)).utf8ByteSize = _ at behind
      dsimp only
      rw [behind, ok_bind, offset?_eq closer rest (by decide), nameIn?, Option.map_map, Option.map_map]
      have ends (parts : List Char × List Char) : first.utf8Size + width parts.1 = width (first :: parts.1) :=
        (width_cons first parts.1).symm
      exact congrArg (fun pick => Except.ok (Option.map pick _)) (funext ends)

theorem nameAt?_eq (left right : List Char) : nameAt? (String.ofList (left ++ right)) (width left) =
    .ok ((nameIn? (right.takeWhile (· ≠ newline))).map String.ofList) := by
  rw [nameAt?, lineFrom_eq, ok_bind, nameEnd?_eq, ok_bind]
  cases named : nameIn? (right.takeWhile (· ≠ newline)) with
  | none => rfl
  | some name =>
      obtain ⟨⟨_, onLine⟩, _⟩ := nameIn?_spec _ name named
      obtain ⟨more, rfl⟩ := ((List.prefix_append name closer).trans onLine).trans (List.takeWhile_prefix _)
      have middle := slice_middle left name more
      rw [width_append, List.append_assoc] at middle
      rw [Option.map_some, Option.mapM_some, middle]
      rfl

def Span.ofTag (text : List Char) (tag : Tag) : Span :=
  ⟨String.ofList tag.name, width (text.take tag.start), width (text.take tag.stop)⟩

theorem Span.ofTag_eq (passed name after : List Char) :
    Span.ofTag (passed ++ (opener ++ name ++ closer) ++ after) ⟨name, passed.length, passed.length + tagLength name⟩ =
      ⟨String.ofList name, width passed, width passed + width opener + width name + width closer⟩ := by
  have stop : passed.length + tagLength name = (passed ++ (opener ++ name ++ closer)).length := by
    simp only [tagLength, List.length_append]
  have start : (passed ++ (opener ++ name ++ closer) ++ after).take passed.length = passed := by
    rw [List.append_assoc, List.take_left]
  rw [ofTag, start, stop, List.take_left]
  simp only [width_append, Nat.add_assoc]

theorem findTag_round (out before after : List Char) (fewer : Nat)
    (found : splitBefore? opener (before ++ (opener ++ after)) = some (before, opener ++ after)) :
    findTag (String.ofList (out ++ (before ++ (opener ++ after)))) (fewer + 1) (width out) =
      match nameIn? (after.takeWhile (· ≠ newline)) with
      | some name => .ok (some ⟨String.ofList name, width (out ++ before),
          width (out ++ before) + width opener + width name + width closer⟩)
      | none =>
          findTag (String.ofList (out ++ (before ++ (opener ++ after)))) fewer (width (out ++ before ++ ['\x60'])) := by
  have present : offset? opener (String.ofList (before ++ (opener ++ after))) = some (width before) := by
    rw [offset?_eq _ _ (by decide), found]
    rfl
  have named := nameAt?_eq (out ++ before ++ opener) after
  rw [width_append, width_append, List.append_assoc, List.append_assoc] at named
  have next : width (out ++ before ++ ['\x60']) = width out + width before + 1 := by
    simp only [width_append]
    rfl
  rw [findTag, slice_behind, ok_bind, present]
  dsimp only
  rw [named, ok_bind, next, width_append]
  cases nameIn? (after.takeWhile (· ≠ newline)) with
  | none => rfl
  | some name =>
      simp only [Option.map_some, width_eq name]
      rfl

-- One round for each opener is enough. The induction is on the scanner's rounds: `out` grows by what is passed over.
theorem findTag_scanFrom (rest : List Char) (position : Nat) (out : List Char) (here : out.length = position)
    (allowance : Nat) (enough : openers rest ≤ allowance) :
    findTag (String.ofList (out ++ rest)) allowance (width out) =
      .ok ((scanFrom rest position).map (Span.ofTag (out ++ rest))) := by
  fun_induction scanFrom rest position generalizing out allowance with
  | case1 rest position unopened =>
      have absent : offset? opener (String.ofList rest) = none := by
        rw [offset?_eq _ _ (by decide), unopened]
        rfl
      rw [findTag.eq_def, slice_behind, ok_bind, absent]
      rfl
  | case2 rest position before later found name named =>
      obtain ⟨joined, after, whole⟩ := splitBefore_append opener rest _ found
      dsimp only at joined whole
      subst joined whole
      obtain ⟨fewer, rfl, _⟩ := allowed_opener before after allowance enough
      rw [List.drop_left] at named
      obtain ⟨⟨_, onLine⟩, _⟩ := nameIn?_spec _ name named
      obtain ⟨more, rfl⟩ := onLine.trans (List.takeWhile_prefix _)
      have whole : out ++ before ++ (opener ++ name ++ closer) ++ more =
          out ++ (before ++ (opener ++ (name ++ closer ++ more))) := by simp only [List.append_assoc]
      have spot := Span.ofTag_eq (out ++ before) name more
      rw [whole, List.length_append, here] at spot
      rw [findTag_round out before _ fewer found, named]
      exact congrArg (fun span => Except.ok (some span)) spot.symm
  | case3 rest position before later found unnamed ih =>
      obtain ⟨joined, after, whole⟩ := splitBefore_append opener rest _ found
      dsimp only at joined whole
      subst joined whole
      obtain ⟨fewer, rfl, enoughBehind⟩ := allowed_opener before after allowance enough
      rw [List.drop_left] at unnamed
      have further := ih (out ++ before ++ ['\x60']) (by simp [here, Nat.add_assoc]) fewer enoughBehind
      have whole : out ++ before ++ ['\x60'] ++ (opener ++ after).drop 1 = out ++ (before ++ (opener ++ after)) := by
        simp [opener]
      rw [whole] at further
      rw [findTag_round out before after fewer found, unnamed]
      exact further

theorem findTag_eq (text : List Char) (position : Nat) (inside : position ≤ text.length) (allowance : Nat)
    (enough : openers (text.drop position) ≤ allowance) :
    findTag (String.ofList text) allowance (width (text.take position)) =
      .ok ((Markup.findTag text position).map (Span.ofTag text)) := by
  have length : (text.take position).length = position := List.length_take_of_le inside
  have found := findTag_scanFrom (text.drop position) position (text.take position) length allowance enough
  rwa [List.take_append_drop, scanFrom_eq] at found

end Finding

section Editing

theorem upper_eq (text kept : List Char) (cut : Bool) (split : LastLineCut text kept cut) :
    (Bytes.lastNewline? (bytes (String.ofList text))).mapM (fun index => slice (String.ofList text) 0 index) =
      .ok (if cut then some (String.ofList kept) else none) := by
  rw [bytes_eq_encode, String.toList_ofList]
  cases split with
  | cut _ line plain =>
      have before := slice_middle [] kept (newline :: line)
      rw [Bytes.lastNewline?_encode kept line plain, Option.mapM_some]
      exact congrArg (some <$> ·) before
  | whole _ plain =>
      rw [Bytes.lastNewline?_none _ (mt (newline_mem_encode text).mp plain)]
      rfl

theorem lower_eq (text kept : List Char) (cut : Bool) (split : FirstLineCut text kept cut) :
    (Bytes.firstNewline? (bytes (String.ofList text))).mapM
        (fun index => slice (String.ofList text) (index + 1) (String.ofList text).utf8ByteSize) =
      .ok (if cut then some (String.ofList kept) else none) := by
  rw [bytes_eq_encode, String.toList_ofList]
  cases split with
  | cut line _ plain =>
      have behind := slice_behind (line ++ [newline]) kept
      rw [width_append, List.append_assoc] at behind
      rw [Bytes.firstNewline?_encode line kept plain, Option.mapM_some]
      exact congrArg (some <$> ·) behind
  | whole _ plain =>
      rw [Bytes.firstNewline?_none _ (mt (newline_mem_encode text).mp plain)]
      rfl

variable (text : List Char)

def inBytes (edited : List Char × Nat) : String × Nat := (String.ofList edited.1, width (edited.1.take edited.2))

theorem deleteLine_eq (first last : Nat) :
    deleteLine (String.ofList text) (width (text.take first)) (width (text.take last)) =
      .ok (inBytes (Markup.deleteLine text first last)) := by
  obtain ⟨upper, above, upperCut⟩ := LastLineCut.exists (text.take first)
  obtain ⟨lower, below, lowerCut⟩ := FirstLineCut.exists (text.drop last)
  have upperText := getD_cut (String.ofList upper) "" above fun none => congrArg String.ofList (none ▸ upperCut).kept_eq
  have lowerText := getD_cut (String.ofList lower) "" below fun none => congrArg String.ofList (none ▸ lowerCut).kept_eq
  have joinText : (if above && below then "\n" else "") = String.ofList (if above && below then [newline] else []) := by
    split <;> rfl
  rw [deleteLine, slice_take, ok_bind, slice_drop, ok_bind, upper_eq _ upper above upperCut, ok_bind,
    lower_eq _ lower below lowerCut, ok_bind, deleteLine_of_cuts text first last upper lower above below upperCut lowerCut,
    inBytes, List.take_left, width_eq]
  simp only [isSome_cut, upperText, lowerText, joinText, String.ofList_append]
  rfl

theorem edit_eq (tag : Tag) (inside : tag.start ≤ text.length) (resolution : Resolution) :
    edit (String.ofList text) (Span.ofTag text tag) resolution = .ok (inBytes (Markup.edit text tag resolution)) := by
  cases resolution with
  | replace value =>
      have length : (text.take tag.start ++ value).length = tag.start + value.length := by
        rw [List.length_append, List.length_take_of_le inside]
      rw [edit, Span.ofTag, slice_take, ok_bind, slice_drop, ok_bind, Markup.edit, inBytes, ← length, List.take_left,
        String.ofList_append, String.ofList_append, width_append]
      rfl
  | deleteLine => exact deleteLine_eq text tag.start tag.stop

end Editing

end Sliced

end ClassProgression.Markup
