import ClassProgression.Json.Number
import Mathlib

namespace ClassProgression.Decimal

open Float.Model (UnpackedFloat Format totalExponent)
open Float.Model.UnpackedFloat (ExtendedMantissa Accuracy shiftToExponent shiftToTargetExponent roundWithAccuracy)

abbrev double : Format := .binary64

theorem bias : (double.exponentBias : Int) + double.mantissaBitsWithoutImplicit = 1075 := rfl

theorem add_bias (exponent : Int) :
    exponent + (double.exponentBias : Int) + double.mantissaBitsWithoutImplicit = exponent + 1075 := by
  rw [Int.add_assoc, bias]

theorem capacity : 2 ^ double.exponentBits = 2048 := rfl

-- A finite number whose exponent is at most so large.
inductive Within (limit : Int) : UnpackedFloat → Prop
  | zero (sign) : Within limit (.zero sign)
  | finite (sign mantissa exponent positive) (small : exponent ≤ limit) : Within limit (.finite sign mantissa exponent positive)

theorem Within.isFinite (limit : Int) (number : UnpackedFloat) (within : Within limit number) : number.isFinite := by
  cases within <;> rfl

-- A number other than zero whose exponent is at least so large.
def isDivisor (low : Int) : UnpackedFloat → Bool
  | .finite _ _ exponent _ => low ≤ exponent
  | _ => false

theorem isDivisor_mono (low other : Int) (number : UnpackedFloat) (divides : isDivisor low number) (lower : other ≤ low) :
    isDivisor other number := by
  cases number with
  | finite sign mantissa exponent positive => exact decide_eq_true (lower.trans (of_decide_eq_true divides))
  | _ => cases divides

section Packing

open Float.Model.UnpackedFloat

variable (bits : BitVec double.numBits)

theorem unpack_mantissa (sign mantissa exponent positive)
    (found : unpack double bits = .finite sign mantissa exponent positive) : mantissa < 2 ^ 53 := by
  unfold unpack at found
  dsimp only at found
  split_ifs at found
  · cases found
    exact (unpackMantissa bits).isLt.trans (by decide)
  · cases found
    exact (1#1 ++ unpackMantissa bits).isLt

-- The last exponent is kept for what is no finite number.
theorem exponent_le (exponent : BitVec 11) (spare : exponent ≠ -1#11) : exponent.toNat ≤ 2046 := by
  have range := exponent.isLt
  have other : exponent.toNat ≠ 2047 := fun same => spare (BitVec.eq_of_toNat_eq same)
  omega

theorem within_unpack (finite : (unpack double bits).isFinite) : Within 971 (unpack double bits) := by
  unfold unpack at finite ⊢
  dsimp only at finite ⊢
  split_ifs at finite ⊢ with all none subnormal
  · cases finite
  · cases finite
  · exact .zero _
  · refine .finite _ _ _ _ ?_
    rw [subnormal]
    decide
  · refine .finite _ _ _ _ ?_
    have range := exponent_le (unpackExponent bits) all
    rw [bias]
    omega

variable (limit : Int) (sign : UnpackedFloat.Sign) (exponent : BitVec 11) (mantissa : BitVec 52)

theorem within_unpack_packComponents (spare : exponent ≠ -1#11) (least : -1074 ≤ limit)
    (small : (exponent.toNat : Int) - 1075 ≤ limit) :
    Within limit (unpack double (packComponents double sign exponent mantissa)) := by
  unfold unpack
  simp only [unpackExponent_packComponents, unpackMantissa_packComponents, if_neg spare]
  rw [bias]
  split_ifs with subnormal zero
  · exact .zero _
  · refine .finite _ _ _ _ ?_
    rw [subnormal]
    exact least
  · exact .finite _ _ _ _ small

theorem within_unpack_pack (number : UnpackedFloat) (within : Within limit number) (least : -1074 ≤ limit)
    (most : limit ≤ 971) : Within limit (unpack double (pack double number)) := by
  cases within with
  | zero sign => exact within_unpack_packComponents limit sign 0 0 (by decide) least (by simp; omega)
  | finite sign mantissa exponent positive small =>
      have room : ¬ 2 ^ double.exponentBits ≤ (exponent + 1075).toNat + 1 := by
        rw [capacity]
        omega
      have biased : (BitVec.ofNat 11 (exponent + 1075).toNat).toNat = (exponent + 1075).toNat := by
        rw [BitVec.toNat_ofNat, Nat.mod_eq_of_lt (by omega)]
      unfold pack
      have biasing := add_bias exponent
      simp only [biasing, if_neg room]
      split_ifs
      · refine within_unpack_packComponents limit sign _ _ (fun all => ?_) least ?_
        · rw [all] at biased
          have last : (-1#11 : BitVec 11).toNat = 2047 := rfl
          omega
        · rw [biased]
          omega
      · exact within_unpack_packComponents limit sign 0 _ (by decide) least (by simp; omega)

theorem isDivisor_unpack_pack (number : Nat) (positive : 0 < number) (full : number.log2 = 52) (low power : Int)
    (above : low ≤ power) (least : -1074 ≤ power) (most : power ≤ 971) :
    isDivisor low (unpack double (pack double (.finite sign number power positive))) := by
  have room : ¬ 2 ^ double.exponentBits ≤ (power + 1075).toNat + 1 := by
    rw [capacity]
    omega
  have biased : (BitVec.ofNat 11 (power + 1075).toNat).toNat = (power + 1075).toNat := by
    rw [BitVec.toNat_ofNat, Nat.mod_eq_of_lt (by omega)]
  have spare : BitVec.ofNat 11 (power + 1075).toNat ≠ -1#11 := fun all => by
    rw [all] at biased
    have last : (-1#11 : BitVec 11).toNat = 2047 := rfl
    omega
  have normal : BitVec.ofNat 11 (power + 1075).toNat ≠ 0#11 := fun none => by
    rw [none] at biased
    have first : (0#11 : BitVec 11).toNat = 0 := rfl
    omega
  have length : number.log2 + 1 = double.mantissaBits := by rw [full]; rfl
  have packed : pack double (.finite sign number power positive) =
      packComponents double sign (BitVec.ofNat 11 (power + 1075).toNat) (BitVec.ofNat 52 number) := by
    unfold pack
    have biasing := add_bias power
    simp only [biasing, if_neg room, if_pos length]
  have parts := bias
  have unbiased : ((power + 1075).toNat : Int) - 1075 = power := by omega
  rw [packed]
  unfold unpack
  simp only [unpackExponent_packComponents, unpackMantissa_packComponents, if_neg spare, if_neg normal, biased, parts,
    unbiased]
  exact decide_eq_true above

-- Packing turns a finite number into no other than an infinite one.
theorem isFinite_unpack_pack (number : UnpackedFloat) (finite : number.isFinite)
    (noOverflow : (unpack double (pack double number)).isInf = false) :
    (unpack double (pack double number)).isFinite := by
  cases number with
  | zero sign => exact (within_unpack_pack 0 _ (.zero sign) (by decide) (by decide)).isFinite
  | finite sign mantissa exponent positive =>
      by_cases small : exponent ≤ 971
      · exact (within_unpack_pack 971 _ (.finite _ _ _ _ small) (by decide) (by decide)).isFinite
      · have full : 2 ^ double.exponentBits ≤
            (exponent + (double.exponentBias : Int) + double.mantissaBitsWithoutImplicit).toNat + 1 := by
          rw [add_bias, capacity]
          omega
        have overflow : pack double (.finite sign mantissa exponent positive) = packedInfinity double sign := by
          unfold pack
          exact if_pos full
        rw [overflow] at noOverflow
        simp [unpack, packedInfinity, isInf] at noOverflow
  | _ => cases finite

end Packing

section Rounding

variable (mantissa : Nat) (exponent : Int) (accuracy : Accuracy)

theorem shiftRight_mantissa (extended : ExtendedMantissa) (count : Nat) :
    (extended >>> count).mantissa = extended.mantissa / 2 ^ count := by
  induction count with
  | zero => exact (Nat.div_one _).symm
  | succ count ih =>
      change (extended >>> count).mantissa / 2 = _
      rw [ih, Nat.div_div_eq_div_mul, Nat.pow_succ]

theorem roundedMantissa_bounds (extended : ExtendedMantissa) :
    extended.mantissa ≤ extended.roundedMantissa ∧ extended.roundedMantissa ≤ extended.mantissa + 1 := by
  obtain ⟨mantissa, roundBit, stickyBit⟩ := extended
  have parity : mantissa % 2 ≤ 1 := Nat.le_of_lt_succ (Nat.mod_lt _ (by decide))
  cases roundBit <;> cases stickyBit
  · exact ⟨Nat.le_refl _, Nat.le_succ _⟩
  · exact ⟨Nat.le_refl _, Nat.le_succ _⟩
  · exact ⟨Nat.le_add_right _ _, Nat.add_le_add_left parity mantissa⟩
  · exact ⟨Nat.le_succ _, Nat.le_refl _⟩

theorem targetExponent_eq (total : Int) : double.targetExponent total = max (total - 53) (-1074) := rfl

def shift : Nat := (max (mantissa.log2 + exponent - 52) (-1074) - exponent).toNat

theorem targetExponent_total :
    double.targetExponent (totalExponent mantissa exponent) = max (mantissa.log2 + exponent - 52) (-1074) := by
  rw [targetExponent_eq, totalExponent]
  omega

theorem shiftToTargetExponent_exponent :
    (shiftToTargetExponent double mantissa exponent accuracy).2 = exponent + shift mantissa exponent :=
  congrArg (fun target : Int => exponent + (target - exponent).toNat) (targetExponent_total mantissa exponent)

theorem shiftToTargetExponent_mantissa : (shiftToTargetExponent double mantissa exponent accuracy).1.mantissa =
    mantissa / 2 ^ shift mantissa exponent := by
  have start : (ExtendedMantissa.ofMantissaAndAccuracy mantissa accuracy).mantissa = mantissa := by
    cases accuracy with
    | exact => rfl
    | inexact order => cases order <;> rfl
  have shifted : (shiftToTargetExponent double mantissa exponent accuracy).1 =
      ExtendedMantissa.ofMantissaAndAccuracy mantissa accuracy >>>
        (double.targetExponent (totalExponent mantissa exponent) - exponent).toNat := rfl
  rw [shifted, shiftRight_mantissa, start, targetExponent_total]
  rfl

theorem div_shift_lt (bits : Nat) (enough : mantissa.log2 ≤ 52 + bits) : mantissa / 2 ^ bits < 2 ^ 53 := by
  rw [Nat.div_lt_iff_lt_mul (Nat.two_pow_pos _), ← Nat.pow_add]
  exact Nat.lt_log2_self.trans_le (Nat.pow_le_pow_right (by decide) (by omega))

theorem le_div_shift (bits : Nat) (positive : mantissa ≠ 0) (exact : mantissa.log2 = 52 + bits) :
    2 ^ 52 ≤ mantissa / 2 ^ bits := by
  rw [Nat.le_div_iff_mul_le (Nat.two_pow_pos _), ← Nat.pow_add, ← exact]
  exact Nat.log2_self_le positive

theorem log2_le (bits : Nat) (narrow : mantissa < 2 ^ (bits + 1)) : mantissa.log2 ≤ bits := by
  by_cases none : mantissa = 0
  · subst none
    exact Nat.zero_le _
  · exact Nat.le_of_lt_succ ((Nat.log2_lt none).mpr narrow)

-- The carry of rounding may move a mantissa by one more place.
theorem within_round (sign : UnpackedFloat.Sign) (limit : Int) (room : mantissa.log2 + exponent - 51 ≤ limit)
    (own : exponent < limit) (least : -1074 < limit) :
    Within limit (roundWithAccuracy double sign mantissa exponent accuracy) := by
  have first := shiftToTargetExponent_exponent mantissa exponent accuracy
  have short := div_shift_lt mantissa (shift mantissa exponent) (by unfold shift; omega)
  rw [← shiftToTargetExponent_mantissa mantissa exponent accuracy] at short
  have rounded := (roundedMantissa_bounds (shiftToTargetExponent double mantissa exponent accuracy).1).2
  have length := log2_le (shiftToTargetExponent double mantissa exponent accuracy).1.roundedMantissa 53 (by omega)
  unfold roundWithAccuracy
  dsimp only
  split_ifs
  · exact .zero _
  · refine .finite _ _ _ _ ?_
    rw [shiftToTargetExponent_exponent]
    unfold shift at first ⊢
    omega

-- A mantissa of full length is made of one that is at least so long, so the exponent is known but for the carry.
theorem full_round (sign : UnpackedFloat.Sign) (wide : 52 ≤ mantissa.log2) (least : -1074 ≤ mantissa.log2 + exponent - 52) :
    ∃ rounded power positive, roundWithAccuracy double sign mantissa exponent accuracy =
        .finite sign rounded power positive ∧ rounded.log2 = 52 ∧ mantissa.log2 + exponent - 52 ≤ power ∧
      power ≤ mantissa.log2 + exponent - 51 := by
  have nonzero : mantissa ≠ 0 := by rintro rfl; exact absurd wide (by decide)
  have exact : mantissa.log2 = 52 + shift mantissa exponent := by unfold shift; omega
  have first := shiftToTargetExponent_mantissa mantissa exponent accuracy
  have power := shiftToTargetExponent_exponent mantissa exponent accuracy
  have low := le_div_shift mantissa _ nonzero exact
  have high := div_shift_lt mantissa _ (Nat.le_of_eq exact)
  rw [← first] at low high
  unfold roundWithAccuracy
  dsimp only
  obtain ⟨kept, carried⟩ := roundedMantissa_bounds (shiftToTargetExponent double mantissa exponent accuracy).1
  generalize (shiftToTargetExponent double mantissa exponent accuracy).1.roundedMantissa = rounded at kept carried ⊢
  generalize (shiftToTargetExponent double mantissa exponent accuracy).2 = middle at power ⊢
  have left : rounded ≠ 0 := by omega
  have length : rounded.log2 = 52 + shift rounded middle := by
    have least : 52 ≤ rounded.log2 := (Nat.le_log2 left).mpr (by omega)
    unfold shift
    omega
  have most := log2_le rounded 53 (by omega)
  have second := shiftToTargetExponent_mantissa rounded middle .exact
  have final := (Nat.log2_eq_iff (by have := le_div_shift rounded _ left length; omega)).mpr
    ⟨le_div_shift rounded _ left length, div_shift_lt rounded _ (Nat.le_of_eq length)⟩
  rw [← second] at final
  have inhabited : (shiftToTargetExponent double rounded middle .exact).1.mantissa ≠ 0 := by
    intro empty
    rw [empty] at final
    exact absurd final (by decide)
  rw [dif_neg inhabited]
  refine ⟨_, _, _, rfl, final, ?_, ?_⟩
  · rw [shiftToTargetExponent_exponent]
    omega
  · rw [shiftToTargetExponent_exponent]
    omega

theorem isFinite_round (sign : UnpackedFloat.Sign) : (roundWithAccuracy double sign mantissa exponent accuracy).isFinite := by
  unfold roundWithAccuracy
  dsimp only
  split_ifs <;> rfl

end Rounding

section Arithmetic

def Small (limit : Int) (number : Float) : Prop := Within limit number.toModel.unpack

theorem Small.isFinite (limit : Int) (number : Float) (small : Small limit number) : number.isFinite :=
  Within.isFinite limit _ small

theorem small_of_isFinite (number : Float) (finite : number.isFinite) : Small 971 number := within_unpack _ finite

theorem isFinite_neg (number : Float) (finite : number.isFinite) : (-number).isFinite := by
  have negated : Within 971 number.toModel.unpack.neg := by
    have small := small_of_isFinite number finite
    unfold Small at small
    generalize number.toModel.unpack = number at small
    cases small with
    | zero sign => exact .zero _
    | finite sign mantissa exponent positive small => exact .finite _ _ _ _ small
  exact (within_unpack_pack 971 _ negated (by decide) (by decide)).isFinite

theorem isFinite_mul (left right : Float) (leftFinite : left.isFinite) (rightFinite : right.isFinite)
    (noOverflow : (left * right).isInf = false) : (left * right).isFinite := by
  refine isFinite_unpack_pack _ ?_ noOverflow
  have first := small_of_isFinite left leftFinite
  have second := small_of_isFinite right rightFinite
  unfold Small at first second
  generalize left.toModel.unpack = left at first
  generalize right.toModel.unpack = right at second
  cases first <;> cases second
  · rfl
  · rfl
  · rfl
  · exact isFinite_round _ _ _ _

theorem shift_div_le (left right : Nat) (first second : Int) (short : right < 2 ^ 53) :
    (first - second - min (first - second)
      (double.targetExponent (totalExponent left first - totalExponent right second))).toNat ≤ 105 := by
  have length := log2_le right 52 short
  rw [targetExponent_eq, totalExponent, totalExponent]
  omega

theorem within_quotient (left right count : Nat) (exponent : Int) (accuracy : Accuracy) (sign : UnpackedFloat.Sign)
    (limit : Int) (short : left < 2 ^ 53) (few : count ≤ 105) (room : exponent + 106 ≤ limit) (least : -1074 < limit) :
    Within limit (roundWithAccuracy double sign ((left <<< count) / right) exponent accuracy) := by
  have length : (left <<< count / right).log2 ≤ 157 := by
    refine log2_le _ 157 ((Nat.div_le_self _ _).trans_lt ?_)
    rw [Nat.shiftLeft_eq]
    exact (Nat.mul_lt_mul_of_lt_of_le short (Nat.pow_le_pow_right (by decide) few) (by decide)).trans_le (by decide)
  exact within_round _ _ _ _ limit (by omega) (by omega) least

theorem small_div (number divisor : Float) (limit low other : Int) (small : Small limit number)
    (divides : isDivisor low divisor.toModel.unpack) (room : limit - low + 106 ≤ other) (least : 0 ≤ other)
    (most : other ≤ 971) : Small other (number / divisor) := by
  refine within_unpack_pack other _ ?_ (by omega) most
  have numberBits := unpack_mantissa number.toModel.toBits.toBitVec
  have divisorBits := unpack_mantissa divisor.toModel.toBits.toBitVec
  change ∀ sign mantissa exponent positive, number.toModel.unpack = _ → _ at numberBits
  change ∀ sign mantissa exponent positive, divisor.toModel.unpack = _ → _ at divisorBits
  unfold Small at small
  generalize number.toModel.unpack = number at small numberBits
  generalize divisor.toModel.unpack = divisor at divides divisorBits
  cases divisor with
  | finite sign right second positive =>
      have high : low ≤ second := of_decide_eq_true divides
      cases small with
      | zero sign => exact .zero _
      | finite sign left first positive small =>
          have shift := shift_div_le left right first second (divisorBits _ _ _ _ rfl)
          have below := min_le_left (first - second)
            (double.targetExponent (totalExponent left first - totalExponent right second))
          exact within_quotient left right _ _ _ _ other (numberBits _ _ _ _ rfl) shift (by omega) (by omega)
  | _ => cases divides

theorem within_round_word (sign : UnpackedFloat.Sign) (mantissa : Nat) (narrow : mantissa < 2 ^ 64) :
    Within 65 (UnpackedFloat.round double sign mantissa 0) := by
  have shift : (0 - double.targetExponent (totalExponent mantissa 0)).toNat ≤ 52 := by
    rw [targetExponent_eq, totalExponent]
    omega
  have length := log2_le (mantissa <<< (0 - double.targetExponent (totalExponent mantissa 0)).toNat) 116 <| by
    rw [Nat.shiftLeft_eq]
    exact (Nat.mul_lt_mul_of_lt_of_le narrow (Nat.pow_le_pow_right (by decide) shift) (by decide)).trans (by decide)
  refine within_round _ _ _ _ 65 ?_ ?_ (by decide)
  · omega
  · omega

theorem small_toFloat (n : UInt64) : Small 65 n.toFloat := by
  refine within_unpack_pack 65 _ ?_ (by decide) (by decide)
  have narrow := n.toNat_lt
  change Within 65 (UnpackedFloat.normalize double n.toNat 0 .positive)
  unfold UnpackedFloat.normalize
  split
  · exact within_round_word _ _ (by omega)
  · exact .zero _
  · exact within_round_word _ _ (by omega)

theorem powerOfTen_small : ∀ power ≤ 22, isDivisor (-52) (powerOfTen power).toModel.unpack := by decide +kernel

theorem powerOfTen_308 : isDivisor 971 (powerOfTen 308).toModel.unpack := by decide +kernel

-- Between the powers that are kept in a table and the last one.
theorem powerOfTen_large (power : Nat) (large : 22 < power) (small : power < 308) :
    isDivisor (-52) (powerOfTen power).toModel.unpack := by
  have low : 53 ≤ ((1 <<< 53) * 10 ^ power).log2 := by
    have positive : 0 < 10 ^ power := Nat.pow_pos (by decide)
    exact (Nat.le_log2 (Nat.mul_ne_zero (by decide) positive.ne')).mpr (Nat.le_mul_of_pos_right _ positive)
  have high : ((1 <<< 53) * 10 ^ power).log2 ≤ 1072 := by
    have below : power ≤ 307 := by omega
    have most := Nat.pow_le_pow_right (Nat.succ_pos 9) below
    exact log2_le _ 1072 ((Nat.mul_le_mul_left _ most).trans_lt (by decide +kernel))
  obtain ⟨rounded, exponent, positive, found, full, least, most⟩ :=
    full_round ((1 <<< 53) * 10 ^ power) (-53) .exact .positive (by omega) (by omega)
  have packed := isDivisor_unpack_pack .positive rounded positive full (-52) exponent (by omega) (by omega) (by omega)
  have scientific : UnpackedFloat.ofScientific double 1 power =
      roundWithAccuracy double .positive ((1 <<< 53) * 10 ^ power) (-53) .exact := by
    have capacity : (2 : Int) ^ double.exponentBits = 2048 := rfl
    have noOverflow : ¬ (power : Int) > 2 ^ double.exponentBits := by omega
    have noUnderflow : ¬ (power : Int) < -((2 ^ double.exponentBits : Int) + (Nat.log2 1 : Nat)) := by omega
    unfold UnpackedFloat.ofScientific
    rw [dif_neg (by decide), if_neg noOverflow, if_neg noUnderflow, if_pos (by omega)]
    rfl
  have number : (powerOfTen power).toModel = .pack (UnpackedFloat.ofScientific double 1 power) := by
    unfold powerOfTen Float.ofScientific
    rw [dif_neg (by omega)]
    rfl
  rw [number, scientific, found]
  exact packed

theorem powerOfTen_isDivisor (power : Nat) (within : power ≤ 308) :
    isDivisor (-52) (powerOfTen power).toModel.unpack := by
  rcases Nat.lt_or_ge 22 power with large | small
  · rcases Nat.eq_or_lt_of_le within with rfl | below
    · exact isDivisor_mono 971 (-52) _ powerOfTen_308 (by decide)
    · exact powerOfTen_large power large (by omega)
  · exact powerOfTen_small power small

theorem isFinite_of_isDivisor (low : Int) (number : Float) (divides : isDivisor low number.toModel.unpack) :
    number.isFinite := by
  change number.toModel.unpack.isFinite
  generalize number.toModel.unpack = number at divides
  cases number with
  | finite sign mantissa exponent positive => rfl
  | _ => cases divides

theorem isFinite_shrink (number : Float) (power : Nat) (small : Small 65 number) : (shrink number power).isFinite := by
  fun_induction shrink number power with
  | case1 number power last =>
      exact (small_div number _ 65 (-52) 223 small (powerOfTen_isDivisor power last) (by decide) (by decide)
        (by decide)).isFinite
  | case2 number power more zero => exact small.isFinite
  | case3 number power more nonzero ih =>
      exact ih (small_div number _ 65 971 65 small powerOfTen_308 (by decide) (by decide) (by decide))

theorem isFinite_scaled (significand : Nat) (power : Int) (number : Float)
    (scaled : scaled? significand power = some number) : number.isFinite := by
  have whole := small_toFloat (UInt64.ofNat significand)
  cases power with
  | ofNat grow =>
      simp only [scaled?] at scaled
      split_ifs at scaled with near infinite zero
      · cases scaled
        exact isFinite_mul _ _ whole.isFinite (isFinite_of_isDivisor _ _ (powerOfTen_isDivisor grow near))
          (Bool.eq_false_iff.mpr infinite)
      · cases scaled
        exact whole.isFinite
  | negSucc less =>
      cases scaled
      exact isFinite_shrink _ _ whole

end Arithmetic

end ClassProgression.Decimal

namespace ClassProgression.Json

theorem Spelling.isFinite_float? (spelling : Spelling) (number : Float) (found : spelling.float? = some number) :
    number.isFinite := by
  obtain ⟨magnitude, read, rfl⟩ := Option.map_eq_some_iff.mp found
  have finite : magnitude.isFinite := by
    split at read
    · exact Decimal.isFinite_scaled _ _ _ read
    · dsimp only at read
      split_ifs at read
      · exact Decimal.isFinite_scaled _ _ _ read
      · exact Decimal.isFinite_scaled _ _ _ read
      · cases read
        decide +kernel
  unfold signed
  split
  · exact Decimal.isFinite_neg magnitude finite
  · exact finite

end ClassProgression.Json
