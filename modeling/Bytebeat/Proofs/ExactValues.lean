import Bytebeat.Proofs.Sums

/-!
# Exact values of doubles

`value x` is the number that a finite double stands for. Finite doubles compare
as their values do (`le_iff_value_le`). A difference and a product are rounded
to a double that no magnitude lies between (`Rounds`).
-/

namespace Bytebeat.Double

open Float.Model (Format UnpackedFloat totalExponent)
open Float.Model.UnpackedFloat

/-- What a finite number stands for. -/
def unpackedValue : UnpackedFloat → ℚ
  | .finite s m e _ => (s.apply m : Int) * 2 ^ e
  | _ => 0

/-- What a finite double stands for; the others have no value and are given zero. -/
def value (x : Float) : ℚ := unpackedValue x.toModel.unpack

theorem unpack_of_isFinite {x : Float} (h : x.isFinite = true) :
    (∃ s, x.toModel.unpack = .zero s) ∨ ∃ s m e hm, x.toModel.unpack = .finite s m e hm := by
  have h : x.toModel.unpack.isFinite = true := h
  cases hu : x.toModel.unpack with
  | notANumber | infinity => rw [hu] at h; cases h
  | zero s => exact .inl ⟨s, rfl⟩
  | finite s m e hm => exact .inr ⟨s, m, e, hm, rfl⟩

theorem isNaN_of_isFinite {x : Float} (h : x.isFinite = true) : x.isNaN = false := by
  show x.toModel.unpack.isNaN = false
  rcases unpack_of_isFinite h with ⟨s, hu⟩ | ⟨s, m, e, hm, hu⟩ <;> rw [hu] <;> rfl

theorem value_of_zero {x : Float} {s : Sign} (h : x.toModel.unpack = .zero s) : value x = 0 := by
  rw [value, h]
  rfl

theorem exists_value_eq {x : Float} (h : x.isFinite = true) :
    ∃ (K : Int) (e : Int), value x = K * 2 ^ e ∧ K.natAbs < 2 ^ 53 ∧ minExponent ≤ e ∧ e ≤ 971 ∧
      (2 ^ 52 ≤ K.natAbs ∨ e = minExponent) := by
  rcases unpack_of_isFinite h with ⟨s, hu⟩ | ⟨s, m, e, hm, hu⟩
  · exact ⟨0, minExponent, by rw [value_of_zero hu, Int.cast_zero, zero_mul], by decide, le_refl _,
      by decide, .inr rfl⟩
  · obtain ⟨hcanonical, he⟩ := bounds_of_unpack hu
    have habs : (s.apply m).natAbs = m := by cases s <;> simp [Sign.apply]
    refine ⟨s.apply m, e, by rw [value, hu]; rfl, ?_, hcanonical.minExponent_le, he, ?_⟩
    · rw [habs]
      exact hcanonical.lt
    · rw [habs]
      exact hcanonical.normal

/-! ## Powers of two -/

theorem two_zpow_le {i j : Int} (h : i ≤ j) : (2 : ℚ) ^ i ≤ 2 ^ j :=
  zpow_le_zpow_right₀ one_le_two h

theorem lt_of_zpow_lt {i j : Int} (h : (2 : ℚ) ^ i < 2 ^ j) : i < j :=
  (zpow_lt_zpow_iff_right₀ one_lt_two).1 h

theorem intCast_mul_zpow (K : Int) {e j : Int} (k : Nat) (he : e = j + k) :
    (K : ℚ) * 2 ^ e = (K * 2 ^ k : Int) * 2 ^ j := by
  rw [he, zpow_add₀ two_ne_zero, zpow_natCast]
  push_cast
  ring

theorem natCast_mul_zpow (m : Nat) {e j : Int} (k : Nat) (he : e = j + k) :
    (m : ℚ) * 2 ^ e = (m * 2 ^ k : Nat) * 2 ^ j :=
  mod_cast intCast_mul_zpow m k he

theorem abs_mul_zpow (K e : Int) : |(K : ℚ) * 2 ^ e| = K.natAbs * 2 ^ e := by
  rw [abs_mul, abs_of_pos (by positivity : (0 : ℚ) < 2 ^ e), Nat.cast_natAbs, Int.cast_abs]

section

variable {m m' : Nat} {e e' : Int}

theorem natCast_mul_zpow_lt (hm : m < 2 ^ 53) (e : Int) : (m : ℚ) * 2 ^ e < 2 ^ (e + 53) := by
  have hm : (m : ℚ) < 2 ^ 53 := mod_cast hm
  rw [zpow_add₀ two_ne_zero, mul_comm (2 ^ e : ℚ)]
  exact mul_lt_mul_of_pos_right hm (by positivity)

/-- What has all 53 bits is greater than what has a smaller exponent. -/
theorem mul_zpow_lt (hm : m < 2 ^ 53) (hnormal : 2 ^ 52 ≤ m') (hlt : e < e') :
    (m : ℚ) * 2 ^ e < m' * 2 ^ e' := by
  have hnormal : (2 : ℚ) ^ 52 ≤ m' := mod_cast hnormal
  calc (m : ℚ) * 2 ^ e < 2 ^ (e + 53) := natCast_mul_zpow_lt hm e
    _ = 2 ^ 52 * 2 ^ (e + 1) := by rw [zpow_add₀ two_ne_zero, zpow_add_one₀ two_ne_zero]; ring
    _ ≤ m' * 2 ^ e' := mul_le_mul hnormal (two_zpow_le hlt) (by positivity) (by positivity)

/-! ## Order -/

theorem Canonical.lt_of_exponent_lt (h : Canonical m' e') (hm : m < 2 ^ 53) (he : minExponent ≤ e)
    (hlt : e < e') : (m : ℚ) * 2 ^ e < m' * 2 ^ e' :=
  mul_zpow_lt hm (h.normal.resolve_right (by omega)) hlt

theorem Canonical.compare_eq (h : Canonical m e) (h' : Canonical m' e') :
    (compare e e').then (compare m m') = compare ((m : ℚ) * 2 ^ e) (m' * 2 ^ e') := by
  rcases lt_trichotomy e e' with hlt | rfl | hlt
  · have hvalue := h'.lt_of_exponent_lt h.lt h.minExponent_le hlt
    rw [compare_lt_iff_lt.2 hlt, compare_lt_iff_lt.2 hvalue]
    rfl
  · have hpos : (0 : ℚ) < 2 ^ e := by positivity
    rw [compare_eq_iff_eq.2 rfl]
    rcases lt_trichotomy m m' with hlt | rfl | hlt
    · have hvalue : (m : ℚ) * 2 ^ e < m' * 2 ^ e := mul_lt_mul_of_pos_right (mod_cast hlt) hpos
      rw [compare_lt_iff_lt.2 hlt, compare_lt_iff_lt.2 hvalue]
      rfl
    · rw [compare_eq_iff_eq.2 rfl, compare_eq_iff_eq.2 rfl]
      rfl
    · have hvalue : (m' : ℚ) * 2 ^ e < m * 2 ^ e := mul_lt_mul_of_pos_right (mod_cast hlt) hpos
      rw [compare_gt_iff_gt.2 hlt, compare_gt_iff_gt.2 hvalue]
      rfl
  · have hvalue := h.lt_of_exponent_lt h'.lt h'.minExponent_le hlt
    rw [compare_gt_iff_gt.2 hlt, compare_gt_iff_gt.2 hvalue]
    rfl

end

theorem unpackedValue_finite (s : Sign) {m : Nat} {e : Int} (hm : 0 < m) :
    unpackedValue (.finite s m e hm) =
      match s with
      | .positive => (m : ℚ) * 2 ^ e
      | .negative => -((m : ℚ) * 2 ^ e) := by
  cases s with
  | positive => rfl
  | negative =>
    rw [unpackedValue, Sign.apply]
    push_cast
    ring

theorem compare_neg_neg (a b : ℚ) : compare (-a) (-b) = (compare a b).swap := by
  rcases lt_trichotomy a b with h | rfl | h
  · rw [compare_lt_iff_lt.2 h, compare_gt_iff_gt.2 (neg_lt_neg h)]
    rfl
  · rw [compare_eq_iff_eq.2 rfl, compare_eq_iff_eq.2 rfl]
    rfl
  · rw [compare_gt_iff_gt.2 h, compare_lt_iff_lt.2 (neg_lt_neg h)]
    rfl

theorem compare_eq {x y : Float} (hx : x.isFinite = true) (hy : y.isFinite = true) :
    x.toModel.unpack.compare y.toModel.unpack = some (compare (value x) (value y)) := by
  rw [value, value]
  rcases unpack_of_isFinite hx with ⟨s, hu⟩ | ⟨s, m, e, hm, hu⟩ <;>
    rcases unpack_of_isFinite hy with ⟨s', hv⟩ | ⟨s', m', e', hm', hv⟩ <;> rw [hu, hv]
  · rfl
  · have hpos' : (0 : ℚ) < m' * 2 ^ e' := by positivity
    rw [unpackedValue_finite]
    cases s' with
    | positive => exact congrArg some (compare_lt_iff_lt.2 hpos').symm
    | negative => exact congrArg some (compare_gt_iff_gt.2 (neg_neg_of_pos hpos')).symm
  · have hpos : (0 : ℚ) < m * 2 ^ e := by positivity
    rw [unpackedValue_finite]
    cases s with
    | positive => exact congrArg some (compare_gt_iff_gt.2 hpos).symm
    | negative => exact congrArg some (compare_lt_iff_lt.2 (neg_neg_of_pos hpos)).symm
  · have hpos : (0 : ℚ) < m * 2 ^ e := by positivity
    have hpos' : (0 : ℚ) < m' * 2 ^ e' := by positivity
    have hcompare := (canonical_of_unpack hu).compare_eq (canonical_of_unpack hv)
    rw [unpackedValue_finite, unpackedValue_finite]
    cases s with
    | positive =>
      cases s' with
      | positive => exact congrArg some hcompare
      | negative => exact congrArg some (compare_gt_iff_gt.2 (by linarith)).symm
    | negative =>
      cases s' with
      | positive => exact congrArg some (compare_lt_iff_lt.2 (by linarith)).symm
      | negative =>
        rw [compare_neg_neg, ← hcompare]
        rfl

theorem le_iff_compare {x y : Float} :
    x ≤ y ↔ (x.toModel.unpack.compare y.toModel.unpack).any (·.isLE) = true :=
  decide_eq_true_iff (p := x.toModel ≤ y.toModel)

theorem lt_iff_compare {x y : Float} :
    x < y ↔ x.toModel.unpack.compare y.toModel.unpack = some .lt :=
  (decide_eq_true_iff (p := x.toModel < y.toModel)).trans beq_iff_eq

theorem beq_iff_compare {x y : Float} :
    (x == y) = true ↔ x.toModel.unpack.compare y.toModel.unpack = some .eq := by
  show (x.toModel.unpack.compare y.toModel.unpack == some .eq) = true ↔ _
  exact beq_iff_eq

theorem le_iff_value_le {x y : Float} (hx : x.isFinite = true) (hy : y.isFinite = true) :
    x ≤ y ↔ value x ≤ value y := by
  rw [le_iff_compare, compare_eq hx hy, Option.any_some, ← Ordering.ne_gt_iff_isLE]
  exact compare_le_iff_le

theorem lt_iff_value_lt {x y : Float} (hx : x.isFinite = true) (hy : y.isFinite = true) :
    x < y ↔ value x < value y := by
  rw [lt_iff_compare, compare_eq hx hy, Option.some.injEq, compare_lt_iff_lt]

theorem beq_iff_value_eq {x y : Float} (hx : x.isFinite = true) (hy : y.isFinite = true) :
    (x == y) = true ↔ value x = value y := by
  rw [beq_iff_compare, compare_eq hx hy, Option.some.injEq, compare_eq_iff_eq]

/-! ## Rounding -/

theorem roundedMantissa_bounds (em : ExtendedMantissa) :
    em.mantissa ≤ em.roundedMantissa ∧ em.roundedMantissa ≤ em.mantissa + 1 := by
  obtain ⟨m, roundBit, stickyBit⟩ := em
  cases roundBit <;> cases stickyBit <;>
    simp only [ExtendedMantissa.roundedMantissa, ExtendedMantissa.accuracy,
      Accuracy.roundToNearestEven] <;> omega

/-- The integer that `n / 2 ^ k` is rounded to. -/
def roundedShift (n k : Nat) : Nat := ((⟨n, false, false⟩ : ExtendedMantissa) >>> k).roundedMantissa

variable {n k : Nat} {E : Int}

theorem le_roundedShift {bound : Nat} (h : bound * 2 ^ k ≤ n) : bound ≤ roundedShift n k := by
  have hfloor := (roundedMantissa_bounds ((⟨n, false, false⟩ : ExtendedMantissa) >>> k)).1
  rw [mantissa_shiftRight] at hfloor
  exact Nat.le_trans ((Nat.le_div_iff_mul_le (Nat.two_pow_pos k)).2 h) hfloor

theorem roundedShift_le {bound : Nat} (h : n ≤ bound * 2 ^ k) : roundedShift n k ≤ bound := by
  rcases Nat.lt_or_eq_of_le h with hlt | rfl
  · have hceil := (roundedMantissa_bounds ((⟨n, false, false⟩ : ExtendedMantissa) >>> k)).2
    rw [mantissa_shiftRight] at hceil
    exact Nat.le_trans hceil ((Nat.div_lt_iff_lt_mul (Nat.two_pow_pos k)).2 hlt)
  · rw [roundedShift, shiftRight_mul_two_pow]
    exact Nat.le_refl bound

/-- The exponent that a number is rounded at: its mantissa has 53 bits there, or fewer if the
exponent is the least. -/
structure RoundedAt (n : Nat) (E : Int) (k : Nat) : Prop where
  target : Format.binary64.targetExponent (totalExponent n E) = E + k
  pos : 0 < n

namespace RoundedAt

theorem minExponent_le (h : RoundedAt n E k) : minExponent ≤ E + k := by
  have htarget := h.target
  simp only [Format.targetExponent, Format.mantissaBits, Format.minExponent] at htarget
  rw [minExponent]
  omega

theorem lt (h : RoundedAt n E k) : n < 2 ^ 53 * 2 ^ k := by
  have htarget := h.target
  simp only [Format.targetExponent, totalExponent, Format.mantissaBits,
    Format.minExponent] at htarget
  rw [← Nat.pow_add]
  exact (Nat.log2_lt (Nat.ne_of_gt h.pos)).1 (by omega)

theorem normal (h : RoundedAt n E k) (hmin : E + k ≠ minExponent) : 2 ^ 52 * 2 ^ k ≤ n := by
  have htarget := h.target
  rw [minExponent] at hmin
  simp only [Format.targetExponent, totalExponent, Format.mantissaBits,
    Format.minExponent] at htarget
  rw [← Nat.pow_add]
  exact (Nat.le_log2 (Nat.ne_of_gt h.pos)).1 (by omega)

/-- A mantissa that is rounded up to 54 bits has a zero behind it. -/
theorem exists_canonical (h : RoundedAt n E k) (hpos : 0 < roundedShift n k) :
    ∃ (m j : Nat), Canonical m (E + k + j) ∧ roundedShift n k = m * 2 ^ j := by
  have hmin := h.minExponent_le
  have hle : roundedShift n k ≤ 2 ^ 53 := roundedShift_le (Nat.le_of_lt h.lt)
  rcases Nat.lt_or_eq_of_le hle with hlt | heq
  · refine ⟨roundedShift n k, 0, ⟨hpos, hlt, by omega, ?_⟩, by rw [Nat.pow_zero, Nat.mul_one]⟩
    by_cases hleast : E + k = minExponent
    · exact .inr (by omega)
    · exact .inl (le_roundedShift (h.normal hleast))
  · exact ⟨2 ^ 52, 1, ⟨by decide, by decide, by omega, .inl (Nat.le_refl _)⟩, heq⟩

/-- A number is rounded to zero or to a double, if of any exponent. -/
theorem roundWithAccuracy_cases (h : RoundedAt n E k) (s : Sign) :
    roundedShift n k = 0 ∧ roundWithAccuracy .binary64 s n E .exact = .zero s ∨
      ∃ m e hm, roundWithAccuracy .binary64 s n E .exact = .finite s m e hm ∧ Canonical m e ∧
        (m : ℚ) * 2 ^ e = roundedShift n k * 2 ^ (E + k) := by
  have hfirst : shiftToTargetExponent .binary64 n E .exact =
      ((⟨n, false, false⟩ : ExtendedMantissa) >>> k, E + k) := by
    have hk : (E + k - E : Int).toNat = k := by omega
    rw [shiftToTargetExponent, h.target, shiftToExponent, hk,
      ExtendedMantissa.ofMantissaAndAccuracy]
  have hround : ((⟨n, false, false⟩ : ExtendedMantissa) >>> k).roundedMantissa = roundedShift n k :=
    rfl
  rcases Nat.eq_zero_or_pos (roundedShift n k) with hzero | hpos
  · have hnone : (shiftToTargetExponent .binary64 0 (E + k) .exact).1.mantissa = 0 := by
      simp only [shiftToTargetExponent, shiftToExponent, mantissa_shiftRight,
        ExtendedMantissa.ofMantissaAndAccuracy, Nat.zero_div]
    refine .inl ⟨hzero, ?_⟩
    simp only [roundWithAccuracy, hfirst, hround, hzero]
    rw [dif_pos hnone]
  · obtain ⟨m, j, hcanonical, hm⟩ := h.exists_canonical hpos
    refine .inr ⟨m, E + k + j, hcanonical.pos, ?_, hcanonical, ?_⟩
    · simp only [roundWithAccuracy, hfirst, hround, hm, hcanonical.shift_eq rfl]
      rw [dif_neg (Nat.ne_of_gt hcanonical.pos)]
    · rw [natCast_mul_zpow m j rfl, ← hm]

/-- Rounding keeps on its side of a number that is no finer than doubles are. -/
theorem le_rounded (h : RoundedAt n E k) {m : Nat} {e : Int} (hm : m < 2 ^ 53)
    (he : minExponent ≤ e) (hle : (m : ℚ) * 2 ^ e ≤ n * 2 ^ E) :
    (m : ℚ) * 2 ^ e ≤ roundedShift n k * 2 ^ (E + k) := by
  rcases le_or_gt (E + k) e with hcoarse | hfine
  · obtain ⟨j, rfl⟩ : ∃ j : Nat, e = E + k + j := ⟨(e - (E + k)).toNat, by omega⟩
    rw [natCast_mul_zpow m (k + j) (by push_cast; ring)] at hle
    rw [natCast_mul_zpow m j rfl]
    have hbound : m * 2 ^ j * 2 ^ k ≤ n := by
      have hcast := le_of_mul_le_mul_right hle (by positivity)
      rw [Nat.mul_assoc, ← Nat.pow_add, Nat.add_comm j]
      exact_mod_cast hcast
    exact mul_le_mul_of_nonneg_right (mod_cast le_roundedShift hbound) (by positivity)
  · exact le_of_lt (mul_zpow_lt hm (le_roundedShift (h.normal (by omega))) hfine)

theorem rounded_le (h : RoundedAt n E k) {m : Nat} {e : Int} (hm : m < 2 ^ 53)
    (he : minExponent ≤ e) (hle : (n : ℚ) * 2 ^ E ≤ m * 2 ^ e) :
    (roundedShift n k : ℚ) * 2 ^ (E + k) ≤ m * 2 ^ e := by
  rcases le_or_gt (E + k) e with hcoarse | hfine
  · obtain ⟨j, rfl⟩ : ∃ j : Nat, e = E + k + j := ⟨(e - (E + k)).toNat, by omega⟩
    rw [natCast_mul_zpow m (k + j) (by push_cast; ring)] at hle
    rw [natCast_mul_zpow m j rfl]
    have hbound : n ≤ m * 2 ^ j * 2 ^ k := by
      have hcast := le_of_mul_le_mul_right hle (by positivity)
      rw [Nat.mul_assoc, ← Nat.pow_add, Nat.add_comm j]
      exact_mod_cast hcast
    exact mul_le_mul_of_nonneg_right (mod_cast roundedShift_le hbound) (by positivity)
  · have hnormal : ((2 ^ 52 * 2 ^ k : Nat) : ℚ) ≤ n := mod_cast h.normal (by omega)
    have hless : (m : ℚ) * 2 ^ e < n * 2 ^ E :=
      calc (m : ℚ) * 2 ^ e < (2 ^ 52 : Nat) * 2 ^ (E + k) := mul_zpow_lt hm (Nat.le_refl _) hfine
        _ = (2 ^ 52 * 2 ^ k : Nat) * 2 ^ E := natCast_mul_zpow _ k rfl
        _ ≤ n * 2 ^ E := mul_le_mul_of_nonneg_right hnormal (by positivity)
    exact absurd hle (not_le_of_gt hless)

end RoundedAt

/-! ## Rounded doubles -/

/-- The numbers that doubles without a sign stand for. -/
def IsMagnitude (r : ℚ) : Prop :=
  ∃ (m : Nat) (e : Int), m < 2 ^ 53 ∧ minExponent ≤ e ∧ e ≤ 971 ∧ r = m * 2 ^ e

/-- A double that is the number `q`, which is not negative, rounded: no magnitude of a double is
between the two. What is too great for a double is infinite. -/
structure Rounds (q : ℚ) (x : Float) : Prop where
  lower : ∀ r, IsMagnitude r → r ≤ q →
    x.toModel.unpack = .infinity .positive ∨ x.isFinite = true ∧ r ≤ value x
  upper : ∀ r, IsMagnitude r → q ≤ r → x.isFinite = true ∧ value x ≤ r

theorem rounds_value {x : Float} (h : x.isFinite = true) : Rounds (value x) x :=
  ⟨fun _ _ hle => .inr ⟨h, hle⟩, fun _ _ hle => ⟨h, hle⟩⟩

theorem unpack_pack_zero (s : Sign) : (Float.Model.pack (.zero s)).unpack = .zero s := by
  cases s <;> rfl

theorem unpack_pack_infinity (s : Sign) :
    (Float.Model.pack (.infinity s)).unpack = .infinity s := by
  cases s <;> rfl

theorem unpack_pack_of_lt (s : Sign) {m : Nat} {e : Int} (hm : 0 < m) (he : 971 < e) :
    (Float.Model.pack (.finite s m e hm)).unpack = .infinity s := by
  have hover : 2 ^ 11 ≤ (e + Format.binary64.exponentBias + 52).toNat + 1 := by
    have hbias : (Format.binary64.exponentBias : Int) = 1023 := rfl
    omega
  have hpack : UnpackedFloat.pack .binary64 (.finite s m e hm) = packedInfinity .binary64 s :=
    if_pos hover
  show UnpackedFloat.unpack .binary64 (UnpackedFloat.pack .binary64 _) = _
  rw [hpack]
  exact unpack_pack_infinity s

theorem unpack_abs (x : Float) : x.abs.toModel.unpack = x.toModel.unpack.abs := by
  show (Float.Model.pack x.toModel.unpack.abs).unpack = _
  cases hu : x.toModel.unpack with
  | notANumber => rfl
  | infinity s => exact unpack_pack_infinity .positive
  | zero s => exact unpack_pack_zero .positive
  | finite s m e hm =>
    obtain ⟨hcanonical, he⟩ := bounds_of_unpack hu
    exact hcanonical.unpack_pack he .positive

theorem isFinite_abs {x : Float} (h : x.isFinite = true) : x.abs.isFinite = true := by
  show x.abs.toModel.unpack.isFinite = true
  rw [unpack_abs]
  rcases unpack_of_isFinite h with ⟨s, hu⟩ | ⟨s, m, e, hm, hu⟩ <;> rw [hu] <;> rfl

theorem value_abs (x : Float) : value x.abs = |value x| := by
  rw [value, unpack_abs, value]
  cases x.toModel.unpack with
  | notANumber | infinity | zero => exact abs_zero.symm
  | finite s m e hm =>
    have hpos : (0 : ℚ) < m * 2 ^ e := by positivity
    rw [UnpackedFloat.abs, unpackedValue_finite, unpackedValue_finite]
    cases s with
    | positive => exact (abs_of_pos hpos).symm
    | negative => exact ((abs_neg _).trans (abs_of_pos hpos)).symm

theorem RoundedAt.rounds_of_value (h : RoundedAt n E k) {x : Float} (hfinite : x.isFinite = true)
    (hvalue : value x = roundedShift n k * 2 ^ (E + k)) : Rounds (n * 2 ^ E) x := by
  constructor
  · rintro _ ⟨m, e, hm, he, -, rfl⟩ hle
    exact .inr ⟨hfinite, hvalue ▸ h.le_rounded hm he hle⟩
  · rintro _ ⟨m, e, hm, he, -, rfl⟩ hle
    exact ⟨hfinite, hvalue ▸ h.rounded_le hm he hle⟩

theorem RoundedAt.rounds (h : RoundedAt n E k) (s : Sign) {x : Float}
    (hx : x.toModel.unpack =
      (Float.Model.pack (roundWithAccuracy .binary64 s n E .exact)).unpack.abs) :
    Rounds (n * 2 ^ E) x := by
  rcases h.roundWithAccuracy_cases s with ⟨hzero, hround⟩ | ⟨m, e, hm, hround, hcanonical, hvalue⟩
  · have hx : x.toModel.unpack = .zero .positive := by
      rw [hx, hround, unpack_pack_zero]
      rfl
    refine h.rounds_of_value (congrArg UnpackedFloat.isFinite hx) ?_
    rw [value, hx, hzero, Nat.cast_zero, zero_mul]
    rfl
  rw [hround] at hx
  rcases le_or_gt e 971 with he | he
  · rw [hcanonical.unpack_pack he] at hx
    refine h.rounds_of_value (congrArg UnpackedFloat.isFinite hx) ?_
    rw [value, hx, ← hvalue]
    rfl
  · rw [unpack_pack_of_lt s hm he] at hx
    refine ⟨fun _ _ _ => .inl hx, ?_⟩
    rintro _ ⟨m', e', hm', he', hmax, rfl⟩ hle
    have hless := hcanonical.lt_of_exponent_lt hm' he' (lt_of_le_of_lt hmax he)
    exact absurd (hvalue ▸ h.rounded_le hm' he' hle) (not_le_of_gt hless)

theorem rounds_round (hn : 0 < n) (s : Sign) {x : Float}
    (hx : x.toModel.unpack =
      (Float.Model.pack (Float.Model.UnpackedFloat.round .binary64 s n E)).unpack.abs) :
    Rounds (n * 2 ^ E) x := by
  obtain ⟨t, ht⟩ : ∃ t, t = Format.binary64.targetExponent (totalExponent n E) := ⟨_, rfl⟩
  obtain ⟨d, hd⟩ : ∃ d, d = (E - t).toNat := ⟨_, rfl⟩
  -- What is rounded after the exponent has been decreased to the one that is aimed at.
  have hround : RoundedAt (n * 2 ^ d) (E - d) (t - (E - d)).toNat := by
    refine ⟨?_, Nat.mul_pos hn (Nat.two_pow_pos d)⟩
    have htotal : totalExponent (n * 2 ^ d) (E - d) = totalExponent n E := by
      rw [totalExponent, totalExponent, log2_mul_two_pow hn]
      omega
    rw [htotal, ← ht]
    omega
  rw [natCast_mul_zpow n d (sub_add_cancel E (d : Int)).symm]
  refine hround.rounds s ?_
  rw [hx]
  simp only [Float.Model.UnpackedFloat.round, ← ht, decreaseExponent, ← hd, Nat.shiftLeft_eq]

theorem rounds_normalize {K : Int} {zero : Sign} {x : Float}
    (hx : x.toModel.unpack =
      (Float.Model.pack (Float.Model.UnpackedFloat.normalize .binary64 K E zero)).unpack.abs) :
    Rounds |(K : ℚ) * 2 ^ E| x := by
  have habs := abs_mul_zpow K E
  rw [Float.Model.UnpackedFloat.normalize] at hx
  rcases lt_trichotomy K 0 with hneg | rfl | hpos
  · rw [Int.compare_eq_lt.2 hneg, (by omega : (-K).toNat = K.natAbs)] at hx
    exact habs ▸ rounds_round (by omega) _ hx
  · have hx : x.toModel.unpack = .zero .positive := by
      rw [hx, Int.compare_eq_eq.2 rfl]
      exact congrArg UnpackedFloat.abs (unpack_pack_zero zero)
    have hvalue : value x = |((0 : Int) : ℚ) * 2 ^ E| := by
      rw [value, hx, Int.cast_zero, zero_mul, abs_zero]
      rfl
    exact hvalue ▸ rounds_value (congrArg UnpackedFloat.isFinite hx)
  · rw [Int.compare_eq_gt.2 hpos, (by omega : K.toNat = K.natAbs)] at hx
    exact habs ▸ rounds_round (by omega) _ hx

theorem apply_decreaseExponent_mul (s : Sign) (m : Nat) {e t : Int} (ht : t ≤ e) :
    ((s.apply (decreaseExponent m e t).1 : Int) : ℚ) * 2 ^ t = (s.apply m : Int) * 2 ^ e := by
  obtain ⟨j, rfl⟩ : ∃ j : Nat, e = t + j := ⟨(e - t).toNat, by omega⟩
  have hshift : (t + j - t : Int).toNat = j := by omega
  have happly : s.apply ((m * 2 ^ j : Nat) : Int) = s.apply m * 2 ^ j := by
    cases s <;> simp [Sign.apply]
  simp only [decreaseExponent, hshift, Nat.shiftLeft_eq]
  rw [happly, intCast_mul_zpow (s.apply m) j rfl]

theorem rounds_abs_sub_of_eq {x y z : Float} (hz : z.isFinite = true)
    (hsub : (sub .binary64 x.toModel.unpack y.toModel.unpack).abs = z.toModel.unpack.abs)
    (hvalue : value x - value y = value z ∨ value x - value y = -value z) :
    Rounds |value x - value y| (x - y).abs := by
  have habs : (x - y).abs = z.abs := by
    apply eq_of_unpack_eq
    rw [unpack_abs, unpack_abs, ← hsub]
    show (Float.Model.pack (sub .binary64 x.toModel.unpack y.toModel.unpack)).unpack.abs = _
    cases hu : sub .binary64 x.toModel.unpack y.toModel.unpack with
    | notANumber => rfl
    | infinity s => rw [unpack_pack_infinity]
    | zero s => rw [unpack_pack_zero]
    | finite s m e hm =>
      rw [hu] at hsub
      cases hv : z.toModel.unpack with
      | notANumber | infinity | zero => rw [hv] at hsub; cases hsub
      | finite s' m' e' hm' =>
        rw [hv] at hsub
        cases hsub
        obtain ⟨hcanonical, he⟩ := bounds_of_unpack hv
        rw [hcanonical.unpack_pack he]
  have hmagnitude : |value x - value y| = value z.abs := by
    rw [value_abs, abs_eq_abs]
    exact hvalue
  rw [habs, hmagnitude]
  exact rounds_value (isFinite_abs hz)

theorem rounds_abs_sub {x y : Float} (hx : x.isFinite = true) (hy : y.isFinite = true) :
    Rounds |value x - value y| (x - y).abs := by
  rcases unpack_of_isFinite hx with ⟨s, hu⟩ | ⟨s, m, e, hm, hu⟩
  · refine rounds_abs_sub_of_eq hy ?_ (.inr (by rw [value_of_zero hu, zero_sub]))
    rcases unpack_of_isFinite hy with ⟨s', hv⟩ | ⟨s', m', e', hm', hv⟩
    · rw [hu, hv]
      cases s <;> cases s' <;> rfl
    · rw [hu, hv]
      rfl
  rcases unpack_of_isFinite hy with ⟨s', hv⟩ | ⟨s', m', e', hm', hv⟩
  · exact rounds_abs_sub_of_eq hx (by rw [hu, hv]; rfl) (.inl (by rw [value_of_zero hv, sub_zero]))
  have hsub : (x - y).abs.toModel.unpack = (Float.Model.pack
      (sub .binary64 x.toModel.unpack y.toModel.unpack)).unpack.abs := unpack_abs (x - y)
  rw [hu, hv] at hsub
  have hvalue : value x - value y =
      ((s.apply (decreaseExponent m e (min e e')).1 -
        s'.apply (decreaseExponent m' e' (min e e')).1 : Int) : ℚ) * 2 ^ min e e' := by
    rw [Int.cast_sub, sub_mul, apply_decreaseExponent_mul s m (min_le_left e e'),
      apply_decreaseExponent_mul s' m' (min_le_right e e'), value, value, hu, hv]
    rfl
  rw [hvalue]
  exact rounds_normalize hsub

theorem RoundedAt.abs_unpack_pack (h : RoundedAt n E k) :
    (Float.Model.pack (roundWithAccuracy .binary64 .positive n E .exact)).unpack.abs =
      (Float.Model.pack (roundWithAccuracy .binary64 .positive n E .exact)).unpack := by
  rcases h.roundWithAccuracy_cases .positive with ⟨-, hround⟩ | ⟨m, e, hm, hround, hcanonical, -⟩
  · rw [hround, unpack_pack_zero]
    rfl
  rw [hround]
  rcases le_or_gt e 971 with he | he
  · rw [hcanonical.unpack_pack he]
    rfl
  · rw [unpack_pack_of_lt .positive hm he]
    rfl

theorem rounds_mul {x y : Float} {m m' : Nat} {e e' : Int} {hm : 0 < m} {hm' : 0 < m'}
    (hx : x.toModel.unpack = .finite .positive m e hm) (hnormal : 2 ^ 52 ≤ m)
    (hy : y.toModel.unpack = .finite .positive m' e' hm') :
    Rounds (value x * value y) (x * y) := by
  obtain ⟨k, hk⟩ : ∃ k : Nat,
      Format.binary64.targetExponent (totalExponent (m * m') (e + e')) = e + e' + k := by
    have hlog : 52 ≤ (m * m').log2 := (Nat.le_log2 (Nat.ne_of_gt (Nat.mul_pos hm hm'))).2
      (Nat.le_trans hnormal (Nat.le_mul_of_pos_right m hm'))
    refine ⟨(Format.binary64.targetExponent (totalExponent (m * m') (e + e')) - (e + e')).toNat, ?_⟩
    simp only [Format.targetExponent, totalExponent, Format.mantissaBits]
    omega
  have hround : RoundedAt (m * m') (e + e') k := ⟨hk, Nat.mul_pos hm hm'⟩
  have hvalue : value x * value y = (m * m' : Nat) * 2 ^ (e + e') := by
    rw [value, value, hx, hy, unpackedValue_finite, unpackedValue_finite, zpow_add₀ two_ne_zero]
    push_cast
    ring
  rw [hvalue]
  refine hround.rounds .positive ?_
  rw [hround.abs_unpack_pack]
  show (Float.Model.pack (mul .binary64 x.toModel.unpack y.toModel.unpack)).unpack = _
  rw [hx, hy]
  rfl

/-! ## Comparing rounded doubles -/

theorem le_infinity {x y : Float} (hx : x.isNaN = false)
    (hy : y.toModel.unpack = .infinity .positive) : x ≤ y := by
  have hx : x.toModel.unpack.isNaN = false := hx
  rw [le_iff_compare, hy]
  cases hu : x.toModel.unpack with
  | notANumber => rw [hu] at hx; cases hx
  | infinity s => cases s <;> rfl
  | zero s => rfl
  | finite s m e hm => cases s <;> rfl

theorem not_infinity_le {x y : Float} (hx : x.toModel.unpack = .infinity .positive)
    (hy : y.isFinite = true) : ¬x ≤ y := by
  rw [le_iff_compare, hx]
  rcases unpack_of_isFinite hy with ⟨s, hv⟩ | ⟨s, m, e, hm, hv⟩ <;> rw [hv] <;>
    exact Bool.false_ne_true

namespace Rounds

variable {q q' r r' : ℚ} {x y : Float}

/-- Numbers with a magnitude between them are rounded to doubles in the same order. -/
theorem le_of_between (hx : Rounds q x) (hy : Rounds q' y) (hr : IsMagnitude r) (hle : q ≤ r)
    (hle' : r ≤ q') : x ≤ y := by
  obtain ⟨hfinite, hbelow⟩ := hx.upper r hr hle
  rcases hy.lower r hr hle' with hinf | ⟨hfinite', habove⟩
  · exact le_infinity (isNaN_of_isFinite hfinite) hinf
  · exact (le_iff_value_le hfinite hfinite').2 (le_trans hbelow habove)

/-- Numbers that are rounded to doubles in one order are not apart in the other. -/
theorem bounds_le (hx : Rounds q x) (hy : Rounds q' y) (hle : x ≤ y) (hr : IsMagnitude r)
    (hq : r ≤ q) (hr' : IsMagnitude r') (hq' : q' ≤ r') : r ≤ r' := by
  obtain ⟨hfinite', habove⟩ := hy.upper r' hr' hq'
  rcases hx.lower r hr hq with hinf | ⟨hfinite, hbelow⟩
  · exact absurd hle (not_infinity_le hinf hfinite')
  · exact le_trans hbelow (le_trans ((le_iff_value_le hfinite hfinite').1 hle) habove)

end Rounds

end Bytebeat.Double
