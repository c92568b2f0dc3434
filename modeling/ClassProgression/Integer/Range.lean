namespace ClassProgression.Integer

def unsigned32? (number : Int) : Option UInt32 :=
  if 0 ≤ number ∧ number.toNat < UInt32.size then some (UInt32.ofNat number.toNat) else none

def signed64? (number : Int) : Option Int64 :=
  if within : Int64.minValue.toInt ≤ number ∧ number ≤ Int64.maxValue.toInt then
    some (Int64.ofIntLE number within.1 within.2)
  else none

@[simp]
theorem unsigned32_toNat (value : UInt32) : unsigned32? value.toNat = some value := by
  simp [unsigned32?, value.toNat_lt_size]

theorem toNat_unsigned32 (number : Int) (value : UInt32) (fits : unsigned32? number = some value) :
    (value.toNat : Int) = number := by
  unfold unsigned32? at fits
  split at fits
  · rename_i within
    cases fits
    rw [UInt32.toNat_ofNat_of_lt' within.2]
    exact Int.toNat_of_nonneg within.1
  · cases fits

@[simp]
theorem signed64_toInt (value : Int64) : signed64? value.toInt = some value := by
  unfold signed64?
  rw [dif_pos ⟨value.minValue_le_toInt, value.toInt_le⟩]
  exact congrArg some (Int64.toInt_inj.mp Int64.toInt_ofIntLE)

theorem toInt_signed64 (number : Int) (value : Int64) (fits : signed64? number = some value) :
    value.toInt = number := by
  unfold signed64? at fits
  split at fits
  · cases fits
    exact Int64.toInt_ofIntLE
  · cases fits

theorem signed64_eq_none (number : Int) : signed64? number = none ↔
    number < Int64.minValue.toInt ∨ Int64.maxValue.toInt < number := by
  unfold signed64?
  split
  · rename_i within
    simp only [reduceCtorEq, false_iff]
    omega
  · rename_i outside
    simp only [true_iff]
    omega

end ClassProgression.Integer
