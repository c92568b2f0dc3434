import ClassProgression.NameMap.Basic
import Mathlib.Data.List.Basic

namespace ClassProgression.Text

def bytes (text : String) : List UInt8 := text.toUTF8.data.toList

theorem bytes_eq (text : String) : bytes text = text.toList.flatMap String.utf8EncodeChar :=
  calc bytes text = (String.ofList text.toList).toByteArray.data.toList := by rw [String.ofList_toList]; rfl
    _ = text.toList.utf8Encode.data.toList := by rw [String.toByteArray_ofList]
    _ = text.toList.flatMap String.utf8EncodeChar := List.toList_data_toByteArray

-- Whatever follows: the first byte in which the two characters differ decides.
theorem encodeChar_lt (left right : Char) (less : left < right) (more other : List UInt8) :
    String.utf8EncodeChar left ++ more < String.utf8EncodeChar right ++ other := by
  have bound : right.val.toNat < 1114112 := by
    have valid := right.valid
    unfold UInt32.isValidChar Nat.isValidChar at valid
    omega
  have order : left.val.toNat < right.val.toNat := UInt32.lt_iff_toNat_lt.mp less
  unfold String.utf8EncodeChar
  generalize left.val.toNat = low at order
  generalize right.val.toNat = high at order bound
  have twice (code : Nat) : code / 4096 = code / 64 / 64 := by omega
  have thrice (code : Nat) : code / 262144 = code / 64 / 64 / 64 := by omega
  dsimp only
  rw [twice, thrice, twice, thrice]
  -- One case for each pair of lengths. A longer character has the greater first byte.
  split_ifs <;>
    simp only [List.cons_append, List.nil_append, List.cons_lt_cons_iff, UInt8.lt_iff_toNat_lt, ← UInt8.toNat_inj,
      UInt8.toNat_ofNat'] <;>
    omega

theorem encode_lt (left right : List Char) (less : left < right) :
    left.flatMap String.utf8EncodeChar < right.flatMap String.utf8EncodeChar := by
  induction left generalizing right with
  | nil =>
      cases right with
      | nil => exact absurd less (List.lt_irrefl _)
      | cons c rest =>
          have written : 0 < (String.utf8EncodeChar c ++ rest.flatMap String.utf8EncodeChar).length := by
            rw [List.length_append, String.length_utf8EncodeChar]
            exact Nat.add_pos_left c.utf8Size_pos _
          obtain ⟨byte, more, parts⟩ := List.exists_cons_of_length_pos written
          rw [List.flatMap_cons, parts]
          exact List.nil_lt_cons byte more
  | cons c rest ih =>
      cases right with
      | nil => exact absurd less (List.not_lt_nil _)
      | cons d more =>
          rw [List.flatMap_cons, List.flatMap_cons]
          rcases List.cons_lt_cons_iff.mp less with lower | ⟨rfl, later⟩
          · exact encodeChar_lt c d lower _ _
          · exact List.append_left_lt (ih more later)

theorem bytes_lt_bytes (left right : String) : bytes left < bytes right ↔ left < right := by
  have forward (left right : String) (less : left < right) : bytes left < bytes right := by
    rw [bytes_eq, bytes_eq]
    exact encode_lt left.toList right.toList less
  refine ⟨fun less => ?_, forward left right⟩
  apply Decidable.byContradiction
  intro notLess
  by_cases same : left = right
  · rw [same] at less
    exact List.lt_irrefl _ less
  · exact List.lt_asymm less (forward right left (NameMap.lt_of_not_lt left right same notLess))

end ClassProgression.Text
