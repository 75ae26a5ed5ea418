import Bytebeat.Proofs.ExactValues
import Bytebeat.Wav
import Mathlib.Algebra.Order.Floor.Semifield

/-!
# Numbers of frames

A duration asks for a number of frames that is computed as a double. A file has
room for it if it is finite, not negative and not too large
(`Wav.HasRoom`), and then as many frames are rendered as its integer part says
(`Double.toNat_toUInt64`).
-/

namespace Bytebeat

namespace Double

open Float.Model (UnpackedFloat)
open Float.Model.UnpackedFloat

variable {x y : Float}

theorem isFinite_of_between (hlow : 0 ≤ x) (hy : y.isFinite = true) (hhigh : x ≤ y) :
    x.isFinite = true := by
  show x.toModel.unpack.isFinite = true
  rw [le_iff_compare] at hlow hhigh
  cases hx : x.toModel.unpack with
  | zero s | finite s m e hm => rfl
  | notANumber => rw [hx] at hhigh; cases hhigh
  | infinity s =>
    rw [hx] at hlow hhigh
    cases s with
    | negative => cases hlow
    | positive =>
      rcases unpack_of_isFinite hy with ⟨s, hu⟩ | ⟨s, m, e, hm, hu⟩ <;>
        rw [hu] at hhigh <;> cases hhigh

theorem between_iff (hy : y.isFinite = true) :
    0 ≤ x ∧ x ≤ y ↔ x.isFinite = true ∧ 0 ≤ value x ∧ value x ≤ value y := by
  have hzero : Float.isFinite 0 = true := rfl
  have hvalue : value 0 = 0 := value_of_zero (s := .positive) rfl
  constructor
  · rintro ⟨hlow, hhigh⟩
    have hx := isFinite_of_between hlow hy hhigh
    rw [le_iff_value_le hzero hx, hvalue] at hlow
    exact ⟨hx, hlow, (le_iff_value_le hx hy).1 hhigh⟩
  · rintro ⟨hx, hlow, hhigh⟩
    rw [← hvalue] at hlow
    exact ⟨(le_iff_value_le hzero hx).2 hlow, (le_iff_value_le hx hy).2 hhigh⟩

theorem toNat_toUInt64 (hx : x.isFinite = true) (hlow : 0 ≤ value x) (hhigh : value x < 2 ^ 52) :
    x.toUInt64.toNat = ⌊value x⌋₊ := by
  show (UInt64.ofNatClamp (x.toModel.unpack.toInt 0 (UInt64.size - 1)).toNat).toNat = _
  rw [toNat_ofNatClamp]
  rcases unpack_of_isFinite hx with ⟨s, hu⟩ | ⟨s, m, e, hm, hu⟩
  · rw [value_of_zero hu, hu]
    rfl
  · have hvalue : value x = unpackedValue (.finite s m e hm) := by rw [value, hu]
    have hmagnitude : (0 : ℚ) < m * 2 ^ e := by positivity
    have hcanonical := canonical_of_unpack hu
    rw [unpackedValue_finite] at hvalue
    cases s with
    | negative =>
      exact absurd hlow (not_le_of_gt (hvalue ▸ neg_neg_of_pos hmagnitude))
    | positive =>
      have hvalue : value x = m * 2 ^ e := hvalue
      -- A mantissa of 53 bits with a greater exponent stands for more than `2 ^ 52`.
      obtain ⟨j, rfl⟩ : ∃ j : Nat, e = -j := by
        refine ⟨(-e).toNat, ?_⟩
        by_contra hexponent
        have hlarge : ((2 ^ 52 : Nat) : ℚ) * 2 ^ (0 : Int) < m * 2 ^ e :=
          mul_zpow_lt (by decide) (hcanonical.normal.resolve_right (by unfold minExponent; omega))
            (by omega)
        norm_num at hlarge
        linarith
      have hparts : value x = (m : ℚ) / (2 ^ j : Nat) := by
        rw [hvalue, zpow_neg, zpow_natCast, Nat.cast_pow, Nat.cast_ofNat, div_eq_mul_inv]
      have hint : x.toModel.unpack.toInt 0 (UInt64.size - 1) = (m / 2 ^ j : Nat) := by
        rw [hu]
        exact roundToInt_eq .positive m j
      have hsmall : m / 2 ^ j ≤ UInt64.size - 1 := by
        have hm := Nat.div_le_self m (2 ^ j)
        have hlt := hcanonical.lt
        have hsize : UInt64.size = 2 ^ 64 := rfl
        omega
      rw [hint, Int.toNat_natCast, Nat.min_eq_left hsmall, hparts, Nat.floor_div_eq_div]

end Double

namespace Wav

/-- A number of frames, computed as a double, for which a file has room. -/
structure HasRoom (count : Float) : Prop where
  isFinite : count.isFinite = true
  nonneg : 0 ≤ Double.value count
  le_maxFrames : Double.value count ≤ maxFrames

theorem value_maxFrames : Double.value (Float.ofNat maxFrames) = maxFrames := by
  have hunpack : (Float.ofNat maxFrames).toModel.unpack =
      .finite .positive (maxFrames * 2 ^ 23) (-23) (by decide) := rfl
  have hone : ((2 ^ 23 : Nat) : ℚ) * 2 ^ (-23 : Int) = 1 := by norm_num
  rw [Double.value, hunpack, Double.unpackedValue_finite]
  simp only [Nat.cast_mul, mul_assoc, hone, mul_one]

variable {count : Float}

theorem hasRoom_iff :
    (decide (0 ≤ count) && decide (count ≤ Float.ofNat maxFrames)) = true ↔ HasRoom count := by
  have hmax : (Float.ofNat maxFrames).isFinite = true := rfl
  rw [Bool.and_eq_true, decide_eq_true_eq, decide_eq_true_eq, Double.between_iff hmax,
    value_maxFrames]
  exact ⟨fun ⟨hfinite, hlow, hhigh⟩ => ⟨hfinite, hlow, hhigh⟩, fun h => ⟨h.1, h.2, h.3⟩⟩

theorem HasRoom.toNat_toUInt64 (h : HasRoom count) :
    count.toUInt64.toNat = ⌊Double.value count⌋₊ := by
  have hmax : (maxFrames : ℚ) < 2 ^ 52 := by
    have hlt : maxFrames < 2 ^ 52 := by decide
    exact mod_cast hlt
  exact Double.toNat_toUInt64 h.isFinite h.nonneg (lt_of_le_of_lt h.le_maxFrames hmax)

theorem HasRoom.floor_le (h : HasRoom count) : ⌊Double.value count⌋₊ ≤ maxFrames :=
  Nat.floor_le_of_le h.le_maxFrames

end Wav

end Bytebeat
