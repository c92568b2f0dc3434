import ClassProgression.Markup.Bytes
import ClassProgression.Proofs.Markup.Stream
import ClassProgression.Proofs.Text.ByteOrder

namespace ClassProgression.Markup

open Text

section Lines

theorem length_lines (text : List Char) : (lines text).length = text.count newline + 1 := by
  induction text with
  | nil => rfl
  | cons c rest ih =>
      by_cases ends : c = newline
      · rw [lines, if_pos ends, List.length_cons, ih, ends, List.count_cons_self]
      · obtain ⟨line, others, split, whole⟩ := lines_cons c rest ends
        rw [whole, List.length_cons, List.count_cons_of_ne ends, ← ih, split, List.length_cons]

-- What a cut keeps, as lines: none if there is nothing to cut.
def keptLines (kept : List Char) (cut : Bool) : List (List Char) := if cut then lines kept else []

theorem LastLineCut.kept_eq (text kept : List Char) (split : LastLineCut text kept false) : kept = [] := by
  cases split
  rfl

theorem FirstLineCut.kept_eq (text kept : List Char) (split : FirstLineCut text kept false) : kept = [] := by
  cases split
  rfl

theorem LastLineCut.lines_eq (text kept : List Char) (cut : Bool) (split : LastLineCut text kept cut) (more : List Char) :
    ∃ line, newline ∉ line ∧ lines (text ++ more) = keptLines kept cut ++ lines (line ++ more) := by
  cases split with
  | cut _ line plain => exact ⟨line, plain, by rw [List.append_assoc, List.cons_append, lines_join]; rfl⟩
  | whole _ plain => exact ⟨text, plain, rfl⟩

theorem FirstLineCut.lines_eq (text kept : List Char) (cut : Bool) (split : FirstLineCut text kept cut) (line : List Char)
    (plain : newline ∉ line) : ∃ held, lines (line ++ text) = held :: keptLines kept cut := by
  cases split with
  | cut before _ plainBefore =>
      have inLine : newline ∉ line ++ before := fun member => (List.mem_append.mp member).elim plain plainBefore
      exact ⟨line ++ before, by rw [← List.append_assoc, lines_join, lines_of_plain _ inLine]; rfl⟩
  | whole _ plainText =>
      have inLine : newline ∉ line ++ text := fun member => (List.mem_append.mp member).elim plain plainText
      exact ⟨line ++ text, lines_of_plain _ inLine⟩

theorem LastLineCut.length_keptLines (text kept : List Char) (cut : Bool) (split : LastLineCut text kept cut) :
    (keptLines kept cut).length = text.count newline := by
  cases split with
  | cut _ line plain =>
      rw [List.count_append, List.count_cons_self, List.count_eq_zero_of_not_mem plain]
      exact length_lines kept
  | whole _ plain => rw [List.count_eq_zero_of_not_mem plain]; rfl

theorem unlines_keptLines (upper lower : List Char) (above below : Bool) (noUpper : above = false → upper = [])
    (noLower : below = false → lower = []) : unlines (keptLines upper above ++ keptLines lower below) =
      upper ++ (if above && below then [newline] else []) ++ lower := by
  unfold keptLines
  cases above with
  | false =>
      rw [noUpper rfl]
      cases below with
      | false => rw [noLower rfl]; rfl
      | true => exact unlines_lines lower
  | true =>
      cases below with
      | false =>
          rw [noLower rfl]
          simp
      | true =>
          simp [unlines_append _ _ (lines_ne_nil upper) (lines_ne_nil lower)]

theorem getD_cut (kept nothing : α) (cut : Bool) (uncut : cut = false → kept = nothing) :
    (if cut then some kept else none).getD nothing = kept := by
  cases cut with
  | false => exact (uncut rfl).symm
  | true => rfl

theorem isSome_cut (kept : α) (cut : Bool) : (if cut then some kept else none).isSome = cut := by
  cases cut <;> rfl

end Lines

theorem take_append_between (text : List α) (start stop : Nat) (ordered : start ≤ stop) :
    text.take start ++ (text.take stop).drop start = text.take stop := by
  have shorter : (text.take stop).take start = text.take start := by rw [List.take_take, Nat.min_eq_left ordered]
  rw [← shorter, List.take_append_drop]

section Removal

variable (text : List Char) (start stop : Nat)

theorem deleteLine_of_cuts (upper lower : List Char) (above below : Bool)
    (upperCut : LastLineCut (text.take start) upper above) (lowerCut : FirstLineCut (text.drop stop) lower below) :
    deleteLine text start stop = (upper ++ (if above && below then [newline] else []) ++ lower,
      (upper ++ if above && below then [newline] else []).length) := by
  have ⟨upperIs, upperHas⟩ := upperCut.beforeLastLine_eq
  have ⟨lowerIs, lowerHas⟩ := lowerCut.afterFirstLine_eq
  simp only [deleteLine, upperIs, lowerIs, upperHas, lowerHas, Bool.and_eq_true]

variable (ordered : start ≤ stop) (plain : newline ∉ (text.take stop).drop start)
include ordered plain

-- The line of the span is as many lines down as there are newlines before the span.
theorem lines_around (upper lower : List Char) (above below : Bool) (upperCut : LastLineCut (text.take start) upper above)
    (lowerCut : FirstLineCut (text.drop stop) lower below) : ∃ held,
      lines text = keptLines upper above ++ held :: keptLines lower below ∧
      (keptLines upper above).length = (text.take start).count newline := by
  obtain ⟨line, plainLine, fromLine⟩ := upperCut.lines_eq _ upper above ((text.take stop).drop start ++ text.drop stop)
  have plainSpan : newline ∉ line ++ (text.take stop).drop start := fun member =>
    (List.mem_append.mp member).elim plainLine plain
  obtain ⟨held, split⟩ := lowerCut.lines_eq _ lower below _ plainSpan
  refine ⟨held, ?_, upperCut.length_keptLines _ upper above⟩
  rw [← List.append_assoc, take_append_between text start stop ordered, List.take_append_drop, ← List.append_assoc,
    split] at fromLine
  exact fromLine

theorem deleteLine_lines :
    (deleteLine text start stop).1 = unlines ((lines text).eraseIdx ((text.take start).count newline)) ∧
      (deleteLine text start stop).1.drop (deleteLine text start stop).2 =
        unlines ((lines text).drop ((text.take start).count newline + 1)) := by
  obtain ⟨upper, above, upperCut⟩ := LastLineCut.exists (text.take start)
  obtain ⟨lower, below, lowerCut⟩ := FirstLineCut.exists (text.drop stop)
  obtain ⟨held, around, number⟩ := lines_around text start stop ordered plain upper lower above below upperCut lowerCut
  have noUpper : above = false → upper = [] := fun none => (none ▸ upperCut).kept_eq
  have noLower : below = false → lower = [] := fun none => (none ▸ lowerCut).kept_eq
  have onlyLower := unlines_keptLines [] lower false below (fun _ => rfl) noLower
  rw [deleteLine_of_cuts text start stop upper lower above below upperCut lowerCut, around, ← number]
  constructor
  · rw [List.eraseIdx_append_of_length_le (Nat.le_refl _), Nat.sub_self, List.eraseIdx_cons_zero]
    exact (unlines_keptLines upper lower above below noUpper noLower).symm
  · rw [List.drop_left, ← List.drop_drop, List.drop_left]
    exact onlyLower.symm

end Removal

section Encoding

def encode (text : List Char) : List UInt8 := text.flatMap String.utf8EncodeChar

theorem bytes_eq_encode (text : String) : bytes text = encode text.toList := bytes_eq text

@[simp]
theorem encode_append (left right : List Char) : encode (left ++ right) = encode left ++ encode right :=
  List.flatMap_append

@[simp]
theorem encode_newline (rest : List Char) : encode (newline :: rest) = Bytes.newline :: encode rest := rfl

theorem length_encode (text : List Char) : (encode text).length = (String.ofList text).utf8ByteSize := by
  rw [← String.size_toByteArray, ← String.toList_ofList (l := text), ← bytes_eq_encode]
  simp [bytes]

theorem length_le_encode (text : List Char) : text.length ≤ (encode text).length := by
  induction text with
  | nil => exact Nat.le_refl 0
  | cons c rest ih =>
      have written : 0 < (String.utf8EncodeChar c).length := String.length_utf8EncodeChar c ▸ c.utf8Size_pos
      rw [List.length_cons, encode, List.flatMap_cons, List.length_append, ← encode]
      omega

-- A character of several bytes has no byte below 128.
theorem newline_mem_encodeChar (c : Char) : Bytes.newline ∈ String.utf8EncodeChar c ↔ c = newline := by
  constructor
  · intro written
    have ten : Bytes.newline.toNat = 10 := rfl
    have code : c.val.toNat = 10 := by
      unfold String.utf8EncodeChar at written
      generalize c.val.toNat = code at written ⊢
      dsimp only at written
      split_ifs at written <;>
        simp only [List.mem_cons, List.not_mem_nil, or_false, ← UInt8.toNat_inj, ten, UInt8.toNat_ofNat'] at written <;>
        omega
    exact Char.ext (UInt32.toNat_inj.mp code)
  · intro same
    subst same
    decide

theorem newline_mem_encode (text : List Char) : Bytes.newline ∈ encode text ↔ newline ∈ text := by
  rw [encode, List.mem_flatMap]
  constructor
  · intro ⟨c, member, written⟩
    exact (newline_mem_encodeChar c).mp written ▸ member
  · exact fun member => ⟨newline, member, (newline_mem_encodeChar newline).mpr rfl⟩

theorem count_encode (text : List Char) : (encode text).count Bytes.newline = text.count newline := by
  induction text with
  | nil => rfl
  | cons c rest ih =>
      by_cases ends : c = newline
      · rw [ends, encode_newline, List.count_cons_self, List.count_cons_self, ih]
      · have other := mt (newline_mem_encodeChar c).mp ends
        rw [encode, List.flatMap_cons, List.count_append, List.count_eq_zero_of_not_mem other, ← encode, ih,
          List.count_cons_of_ne ends, Nat.zero_add]

end Encoding

namespace Bytes

theorem firstNewline?_cut (before after : List UInt8) (plain : newline ∉ before) :
    firstNewline? (before ++ newline :: after) = some before.length := by
  have none : before.findIdx? (· == newline) = none := by
    refine List.findIdx?_eq_none_iff.mpr fun byte member => ?_
    exact beq_false_of_ne fun same => plain (same ▸ member)
  rw [firstNewline?, List.findIdx?_append, none]
  simp [List.findIdx?_cons]

theorem firstNewline?_none (text : List UInt8) (plain : newline ∉ text) : firstNewline? text = none := by
  refine List.findIdx?_eq_none_iff.mpr fun byte member => ?_
  exact beq_false_of_ne fun same => plain (same ▸ member)

theorem lastNewline?_eq (text : List UInt8) : lastNewline? text =
    (firstNewline? text.reverse).map fun index => text.length - (index + 1) := rfl

theorem firstNewline?_encode (line kept : List Char) (plain : Text.newline ∉ line) :
    firstNewline? (encode (line ++ Text.newline :: kept)) = some (encode line).length := by
  rw [encode_append, encode_newline, firstNewline?_cut _ _ (mt (newline_mem_encode line).mp plain)]

theorem lastNewline?_encode (kept line : List Char) (plain : Text.newline ∉ line) :
    lastNewline? (encode (kept ++ Text.newline :: line)) = some (encode kept).length := by
  have plainBytes := mt List.mem_reverse.mp (mt (newline_mem_encode line).mp plain)
  have position : (encode kept ++ newline :: encode line).length - ((encode line).reverse.length + 1) =
      (encode kept).length := by simp
  rw [lastNewline?_eq, encode_append, encode_newline, List.reverse_append, List.reverse_cons, List.append_assoc,
    List.singleton_append, firstNewline?_cut _ _ plainBytes, Option.map_some, position]

theorem lastNewline?_none (text : List UInt8) (plain : newline ∉ text) : lastNewline? text = none := by
  rw [lastNewline?_eq, firstNewline?_none _ (mt List.mem_reverse.mp plain)]
  rfl

theorem lower?_encode (text kept : List Char) (cut : Bool) (split : FirstLineCut text kept cut) :
    lower? (encode text) = if cut then some (encode kept) else none := by
  cases split with
  | cut line _ plain =>
      rw [lower?, firstNewline?_encode line kept plain, Option.map_some, encode_append, encode_newline, ← List.drop_drop,
        List.drop_left]
      rfl
  | whole _ plain =>
      rw [lower?, firstNewline?_none _ (mt (newline_mem_encode text).mp plain)]
      rfl

theorem upper?_encode (text kept : List Char) (cut : Bool) (split : LastLineCut text kept cut) :
    upper? (encode text) = if cut then some (encode kept) else none := by
  cases split with
  | cut _ line plain =>
      rw [upper?, lastNewline?_encode kept line plain, Option.map_some, encode_append, List.take_left]
      rfl
  | whole _ plain =>
      rw [upper?, lastNewline?_none _ (mt (newline_mem_encode text).mp plain)]
      rfl

end Bytes

-- A position in bytes that lies between two characters of a text, and the same position counted in characters.
structure Boundary (text : String) (offset place : Nat) : Prop where
  valid : (String.Pos.Raw.mk offset).IsValid text
  inside : place ≤ text.toList.length
  width : offset = (encode (text.toList.take place)).length

namespace Boundary

variable (text : String) (offset place : Nat)

theorem of_place (inside : place ≤ text.toList.length) :
    Boundary text (encode (text.toList.take place)).length place :=
  ⟨String.Pos.Raw.isValid_iff_exists_take_toList.mpr ⟨place, length_encode _⟩, inside, rfl⟩

theorem of_valid (valid : (String.Pos.Raw.mk offset).IsValid text) : ∃ place, Boundary text offset place := by
  obtain ⟨taken, width⟩ := String.Pos.Raw.isValid_iff_exists_take_toList.mp valid
  have same : text.toList.take (min taken text.toList.length) = text.toList.take taken := List.take_eq_take_min.symm
  refine ⟨min taken text.toList.length, valid, Nat.min_le_right _ _, ?_⟩
  rw [same, length_encode]
  exact width

variable (boundary : Boundary text offset place)
include boundary

theorem parts : (bytes text).take offset = encode (text.toList.take place) ∧
    (bytes text).drop offset = encode (text.toList.drop place) := by
  have whole : bytes text = encode (text.toList.take place) ++ encode (text.toList.drop place) := by
    rw [bytes_eq_encode, ← encode_append, List.take_append_drop]
  rw [whole, boundary.width]
  exact ⟨List.take_left, List.drop_left⟩

theorem place_le (stop last : Nat) (further : Boundary text stop last) (ordered : offset ≤ stop) : place ≤ last := by
  apply Classical.byContradiction
  intro beyond
  have split := congrArg (fun text => (encode text).length)
    (take_append_between text.toList last place (Nat.le_of_not_le beyond))
  simp only [encode_append, List.length_append, ← boundary.width, ← further.width] at split
  have more := length_le_encode ((text.toList.take place).drop last)
  have inside := boundary.inside
  rw [List.length_drop, List.length_take] at more
  omega

theorem between (stop last : Nat) (further : Boundary text stop last) (ordered : offset ≤ stop) :
    ((bytes text).take stop).drop offset = encode ((text.toList.take last).drop place) := by
  have inOrder := boundary.place_le text offset place stop last further ordered
  have split := congrArg encode (take_append_between text.toList place last inOrder)
  rw [encode_append] at split
  rw [further.parts.1, ← split, boundary.width, List.drop_left]

end Boundary

theorem Bytes.deleteLine_encode (text : String) (start stop first last : Nat) (starts : Boundary text start first)
    (stops : Boundary text stop last) : deleteLine (bytes text) start stop =
      (encode (Markup.deleteLine text.toList first last).1,
        (encode ((Markup.deleteLine text.toList first last).1.take (Markup.deleteLine text.toList first last).2)).length) := by
  obtain ⟨upper, above, upperCut⟩ := LastLineCut.exists (text.toList.take first)
  obtain ⟨lower, below, lowerCut⟩ := FirstLineCut.exists (text.toList.drop last)
  have upperBytes := getD_cut (encode upper) [] above fun none => congrArg encode (none ▸ upperCut).kept_eq
  have lowerBytes := getD_cut (encode lower) [] below fun none => congrArg encode (none ▸ lowerCut).kept_eq
  have joinBytes : (if above && below then [newline] else []) =
      encode (if above && below then [Text.newline] else []) := by
    split <;> rfl
  rw [deleteLine, starts.parts.1, stops.parts.2, upper?_encode _ upper above upperCut, lower?_encode _ lower below lowerCut,
    deleteLine_of_cuts text.toList first last upper lower above below upperCut lowerCut, List.take_left]
  simp only [isSome_cut, upperBytes, lowerBytes, joinBytes, encode_append, List.length_append]

-- Any text, and any two positions between characters with no newline between them.
theorem deletion_removes_one_line (text : String) (start stop : Nat) (starts : (String.Pos.Raw.mk start).IsValid text)
    (stops : (String.Pos.Raw.mk stop).IsValid text) (ordered : start ≤ stop)
    (oneLine : Bytes.newline ∉ ((bytes text).take stop).drop start) :
    let number := ((bytes text).take start).count Bytes.newline
    ∃ (first last place position : Nat) (edited : String),
      Boundary text start first ∧ Boundary text stop last ∧ Boundary edited position place ∧
      deleteLine text.toList first last = (edited.toList, place) ∧
      Bytes.deleteLine (bytes text) start stop = (bytes edited, position) ∧
      edited.toList = unlines ((lines text.toList).eraseIdx number) ∧
      (bytes edited).drop position = encode (unlines ((lines text.toList).drop (number + 1))) := by
  intro number
  obtain ⟨first, startsAt⟩ := Boundary.of_valid text start starts
  obtain ⟨last, stopsAt⟩ := Boundary.of_valid text stop stops
  have inOrder := startsAt.place_le text start first stop last stopsAt ordered
  have span : ((bytes text).take stop).drop start = encode ((text.toList.take last).drop first) :=
    startsAt.between text start first stop last stopsAt ordered
  have plain : newline ∉ (text.toList.take last).drop first := by
    rwa [span, newline_mem_encode] at oneLine
  have counted : number = (text.toList.take first).count newline := by
    rw [← count_encode, ← startsAt.parts.1]
  obtain ⟨erased, under⟩ := deleteLine_lines text.toList first last inOrder plain
  rw [← counted] at erased under
  have inside : (deleteLine text.toList first last).2 ≤ (deleteLine text.toList first last).1.length := by
    simp [deleteLine]
  generalize removed : deleteLine text.toList first last = result at erased under inside
  obtain ⟨kept, place⟩ := result
  have inBytes := Bytes.deleteLine_encode text start stop first last startsAt stopsAt
  rw [removed] at inBytes
  have boundary := Boundary.of_place (String.ofList kept) place (by rwa [String.toList_ofList])
  have behind := boundary.parts.2
  rw [String.toList_ofList] at boundary behind
  refine ⟨first, last, place, (encode (kept.take place)).length, String.ofList kept, startsAt, stopsAt, boundary, ?_, ?_, ?_, ?_⟩
  · rw [String.toList_ofList]
    exact removed
  · rw [inBytes, bytes_eq_encode, String.toList_ofList]
  · rw [String.toList_ofList]
    exact erased
  · exact behind.trans (congrArg encode under)

-- Blank lines above and below, and characters of two bytes on every side.
theorem line_between_blanks_removed :
    let text := "é\n\ncd ü ef\n\nß"
    (String.Pos.Raw.mk 7).IsValid text ∧ (String.Pos.Raw.mk 9).IsValid text ∧
      Bytes.newline ∉ ((bytes text).take 9).drop 7 ∧
      ∃ (first last place position : Nat) (edited : String),
        Boundary text 7 first ∧ Boundary text 9 last ∧ Boundary edited position place ∧
        deleteLine text.toList first last = (edited.toList, place) ∧
        Bytes.deleteLine (bytes text) 7 9 = (bytes edited, position) ∧
        edited.toList = "é\n\n\nß".toList ∧ (bytes edited).drop position = encode "\nß".toList := by
  intro text
  have starts : (String.Pos.Raw.mk 7).IsValid text := by decide +kernel
  have stops : (String.Pos.Raw.mk 9).IsValid text := by decide +kernel
  have oneLine : Bytes.newline ∉ ((bytes text).take 9).drop 7 := by decide +kernel
  obtain ⟨first, last, place, position, edited, startsAt, stopsAt, boundary, removed, inBytes, erased, under⟩ :=
    deletion_removes_one_line text 7 9 starts stops (by decide) oneLine
  have kept : unlines ((lines text.toList).eraseIdx (((bytes text).take 7).count Bytes.newline)) = "é\n\n\nß".toList := by
    decide +kernel
  have below : unlines ((lines text.toList).drop (((bytes text).take 7).count Bytes.newline + 1)) = "\nß".toList := by
    decide +kernel
  refine ⟨starts, stops, oneLine, first, last, place, position, edited, startsAt, stopsAt, boundary, removed, inBytes, ?_, ?_⟩
  · exact erased.trans kept
  · exact under.trans (congrArg encode below)

end ClassProgression.Markup
