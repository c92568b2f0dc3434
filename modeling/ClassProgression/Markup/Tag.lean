import ClassProgression.Text.Lines

namespace ClassProgression.Markup

open Text

-- A backtick, a brace, a parenthesis and a space; the closer has the same, closing and in reverse order.
def opener : List Char := ['\x60', '\x7b', '(', ' ']
def closer : List Char := [' ', ')', '\x7d', '\x60']

structure Tag where
  name : List Char
  start : Nat
  stop : Nat
deriving DecidableEq

def nameIn? (line : List Char) : Option (List Char) :=
  match line with
  | [] => none
  | first :: rest => (splitBefore? closer rest).map fun parts => first :: parts.1

def tagAtHead? (text : List Char) : Option (List Char) :=
  if startsWith opener text then nameIn? ((text.drop opener.length).takeWhile (· ≠ newline)) else none

def tagLength (name : List Char) : Nat := opener.length + name.length + closer.length

def firstTag? : List Char → Nat → Option Tag
  | [], _ => none
  | c :: rest, position =>
      match tagAtHead? (c :: rest) with
      | some name => some ⟨name, position, position + tagLength name⟩
      | none => firstTag? rest (position + 1)

def findTag (text : List Char) (start : Nat) : Option Tag := firstTag? (text.drop start) start

-- Lines count from one.
def lineNumber (text : List Char) (position : Nat) : Nat := (text.take position).count newline + 1

theorem splitBefore_append (pattern text : List Char) (parts : List Char × List Char)
    (found : splitBefore? pattern text = some parts) :
    parts.1 ++ parts.2 = text ∧ pattern <+: parts.2 := by
  induction text generalizing parts with
  | nil =>
      unfold splitBefore? at found
      split at found
      · rename_i stands
        cases found
        exact ⟨rfl, List.isPrefixOf_iff_prefix.mp stands⟩
      · cases found
  | cons c rest ih =>
      unfold splitBefore? at found
      split at found
      · rename_i stands
        cases found
        exact ⟨rfl, List.isPrefixOf_iff_prefix.mp stands⟩
      · obtain ⟨inner, split, rfl⟩ := Option.map_eq_some_iff.mp found
        have ⟨joined, stands⟩ := ih inner split
        exact ⟨by simp [joined], stands⟩

theorem tagAtHead_stands (text name : List Char) (found : tagAtHead? text = some name) :
    opener ++ name ++ closer <+: text := by
  unfold tagAtHead? at found
  split at found
  · rename_i stands
    obtain ⟨after, rfl⟩ := List.isPrefixOf_iff_prefix.mp stands
    rw [List.drop_left] at found
    unfold nameIn? at found
    split at found
    · cases found
    · rename_i first rest line
      obtain ⟨parts, split, rfl⟩ := Option.map_eq_some_iff.mp found
      have ⟨joined, later⟩ := splitBefore_append closer rest parts split
      have within : first :: (parts.1 ++ parts.2) <+: after := by
        rw [joined, ← line]; exact List.takeWhile_prefix _
      have named : (first :: parts.1) ++ closer <+: after :=
        List.IsPrefix.trans (by simpa using later) within
      rw [List.append_assoc]
      exact (List.prefix_append_right_inj opener).mpr named
  · cases found

theorem firstTag_bounds (text : List Char) (position : Nat) (tag : Tag)
    (found : firstTag? text position = some tag) :
    position ≤ tag.start ∧ tag.start < tag.stop ∧ tag.stop ≤ position + text.length := by
  induction text generalizing position with
  | nil => cases found
  | cons c rest ih =>
      unfold firstTag? at found
      split at found
      · rename_i name stands
        cases found
        have long := (tagAtHead_stands _ _ stands).length_le
        simp only [tagLength, opener, closer, List.length_append, List.length_cons, List.length_nil] at long ⊢
        omega
      · have bounds := ih (position + 1) found
        simp only [List.length_cons]
        omega

theorem findTag_bounds (text : List Char) (start : Nat) (tag : Tag) (found : findTag text start = some tag) :
    start ≤ tag.start ∧ tag.start < tag.stop ∧ tag.stop ≤ text.length := by
  have bounds := firstTag_bounds _ _ _ found
  rw [List.length_drop] at bounds
  by_cases inside : start ≤ text.length
  · omega
  · rw [findTag, List.drop_eq_nil_of_le (by omega)] at found
    cases found

end ClassProgression.Markup
