import Bytebeat.Arithmetic
import Bytebeat.Proofs.ExactValues

/-!
# Tolerant equality

Two finite doubles count as equal exactly if they are no further apart than
`tolerance` allows, though the check is made on a rounded difference and a
rounded product (`nearlyEqual_iff_of_isFinite`). An infinite double counts as
equal to every number, since what it is compared by is infinite on both sides
(`nearlyEqual_of_isInf`); the comparisons of expressions take that over.
-/

namespace Bytebeat

namespace Double

open Float.Model.UnpackedFloat

/-- The distance up to which two numbers count as equal. -/
def tolerance (a b : ℚ) : ℚ := max (2 ^ (-1022 : Int)) (2 ^ (-52 : Int) * max |a| |b|)

theorem tolerance_comm (a b : ℚ) : tolerance a b = tolerance b a := by
  rw [tolerance, tolerance, max_comm |a|]

theorem tolerance_pos (a b : ℚ) : 0 < tolerance a b := lt_max_of_lt_left (by positivity)

theorem value_of_leadingBit {x : Float} {e : Int}
    (h : x.toModel.unpack = .finite .positive (2 ^ 52) e (by decide)) :
    value x = 2 ^ (e + 52) := by
  have hpow := natCast_mul_zpow 1 52 (rfl : e + 52 = e + (52 : Nat))
  rw [value, h, unpackedValue_finite, ← one_mul (2 ^ (e + 52) : ℚ)]
  exact_mod_cast hpow.symm

theorem unpack_minNormal :
    minNormal.toModel.unpack = .finite .positive (2 ^ 52) (-1074) (by decide) := rfl

theorem isFinite_minNormal : minNormal.isFinite = true := rfl

theorem value_minNormal : value minNormal = 2 ^ (-1022 : Int) :=
  value_of_leadingBit unpack_minNormal

theorem unpack_epsilon :
    epsilon.toModel.unpack = .finite .positive (2 ^ 52) (-104) (by decide) := rfl

theorem value_epsilon : value epsilon = 2 ^ (-52 : Int) := value_of_leadingBit unpack_epsilon

/-! ## What is computed -/

variable {a b : Float}

theorem rounds_epsilon_mul (ha : a.isFinite = true) :
    Rounds (2 ^ (-52 : Int) * |value a|) (epsilon * a.abs) := by
  rw [← value_abs, ← value_epsilon]
  rcases unpack_of_isFinite ha with ⟨s, hu⟩ | ⟨s, m, e, hm, hu⟩
  · have hzero : a.abs.toModel.unpack = .zero .positive := by rw [unpack_abs, hu]; rfl
    have hproduct : (epsilon * a.abs).toModel.unpack = .zero .positive := by
      show (Float.Model.pack (mul .binary64 epsilon.toModel.unpack a.abs.toModel.unpack)).unpack = _
      rw [hzero, unpack_epsilon]
      exact unpack_pack_zero .positive
    rw [value_of_zero hzero, mul_zero, ← value_of_zero hproduct]
    exact rounds_value (congrArg Float.Model.UnpackedFloat.isFinite hproduct)
  · exact rounds_mul unpack_epsilon (Nat.le_refl _) (by rw [unpack_abs, hu]; rfl)

theorem larger_abs (ha : a.isFinite = true) (hb : b.isFinite = true) :
    larger a.abs b.abs = if |value a| < |value b| then b.abs else a.abs := by
  have hlt := lt_iff_value_lt (isFinite_abs ha) (isFinite_abs hb)
  rw [value_abs, value_abs] at hlt
  rw [larger, isNaN_of_isFinite (isFinite_abs ha), isNaN_of_isFinite (isFinite_abs hb),
    if_neg Bool.false_ne_true, if_neg Bool.false_ne_true]
  simp only [hlt]

theorem rounds_epsilon_mul_larger (ha : a.isFinite = true) (hb : b.isFinite = true) :
    Rounds (2 ^ (-52 : Int) * max |value a| |value b|) (epsilon * larger a.abs b.abs) := by
  rw [larger_abs ha hb]
  split
  · rename_i hlt
    rw [max_eq_right (le_of_lt hlt)]
    exact rounds_epsilon_mul hb
  · rename_i hle
    rw [max_eq_left (not_lt.1 hle)]
    exact rounds_epsilon_mul ha

/-! ## Magnitudes at the tolerance -/

theorem isMagnitude_zpow {e : Int} (hmin : minExponent ≤ e) (hmax : e ≤ 971) :
    IsMagnitude (2 ^ e) := ⟨1, e, by decide, hmin, hmax, by rw [Nat.cast_one, one_mul]⟩

theorem isMagnitude_max {x : Float} (h : x.isFinite = true) :
    IsMagnitude (max (2 ^ (-1022 : Int)) (2 ^ (-52 : Int) * |value x|)) ∧
      IsMagnitude (2 * max (2 ^ (-1022 : Int)) (2 ^ (-52 : Int) * |value x|)) := by
  obtain ⟨K, e, hvalue, hK, hmin, hmax, -⟩ := exists_value_eq h
  rw [hvalue, abs_mul_zpow]
  have hscale : (2 : ℚ) ^ (-52 : Int) * (K.natAbs * 2 ^ e) = K.natAbs * 2 ^ (e - 52) := by
    rw [sub_eq_add_neg, zpow_add₀ two_ne_zero]
    ring
  have hdouble : (2 : ℚ) * (K.natAbs * 2 ^ (e - 52)) = K.natAbs * 2 ^ (e - 51) := by
    rw [(by ring : e - 51 = e - 52 + 1), zpow_add_one₀ two_ne_zero]
    ring
  rw [hscale]
  rcases le_total ((K.natAbs : ℚ) * 2 ^ (e - 52)) (2 ^ (-1022 : Int)) with hle | hle
  · rw [max_eq_left hle, ← zpow_one_add₀ two_ne_zero]
    exact ⟨isMagnitude_zpow (by decide) (by decide), isMagnitude_zpow (by decide) (by decide)⟩
  · rw [max_eq_right hle, hdouble]
    have hexp := lt_of_zpow_lt (lt_of_le_of_lt hle (natCast_mul_zpow_lt hK (e - 52)))
    rw [minExponent] at hmin
    exact ⟨⟨_, _, hK, by rw [minExponent]; omega, by omega, rfl⟩,
      ⟨_, _, hK, by rw [minExponent]; omega, by omega, rfl⟩⟩

theorem isMagnitude_tolerance (ha : a.isFinite = true) (hb : b.isFinite = true) :
    IsMagnitude (tolerance (value a) (value b)) ∧
      IsMagnitude (2 * tolerance (value a) (value b)) := by
  unfold tolerance
  rcases max_choice |value a| |value b| with hmax | hmax <;> rw [hmax]
  · exact isMagnitude_max ha
  · exact isMagnitude_max hb

theorem exists_sub_eq (K K' e e' : Int) :
    ∃ D : Int, (K : ℚ) * 2 ^ e - K' * 2 ^ e' = D * 2 ^ min e e' := by
  obtain ⟨i, hi⟩ : ∃ i : Nat, e = min e e' + i := ⟨(e - min e e').toNat, by omega⟩
  obtain ⟨j, hj⟩ : ∃ j : Nat, e' = min e e' + j := ⟨(e' - min e e').toNat, by omega⟩
  refine ⟨K * 2 ^ i - K' * 2 ^ j, ?_⟩
  rw [intCast_mul_zpow K i hi, intCast_mul_zpow K' j hj, ← sub_mul, Int.cast_sub]

/-- Two doubles that are not much further apart than the tolerance are so by the magnitude of a
double. -/
theorem isMagnitude_abs_sub (ha : a.isFinite = true) (hb : b.isFinite = true)
    (hlt : |value a - value b| < 2 * tolerance (value a) (value b)) :
    IsMagnitude |value a - value b| := by
  wlog hle : |value b| ≤ |value a| generalizing a b with hswap
  · rw [abs_sub_comm] at hlt ⊢
    exact hswap hb ha (tolerance_comm _ _ ▸ hlt) (le_of_lt (not_le.1 hle))
  obtain ⟨K, e, hvalue, hK, hmin, hmax, hnormal⟩ := exists_value_eq ha
  obtain ⟨K', e', hvalue', hK', hmin', hmax', -⟩ := exists_value_eq hb
  obtain ⟨D, hD⟩ := exists_sub_eq K K' e e'
  have hdist : |value a - value b| = D.natAbs * 2 ^ min e e' := by
    rw [hvalue, hvalue', hD, abs_mul_zpow]
  refine ⟨D.natAbs, min e e', ?_, by omega, by omega, hdist⟩
  by_contra hfar
  have hbound : (2 : ℚ) ^ (min e e' + 53) ≤ |value a - value b| := by
    have hD : (2 : ℚ) ^ 53 ≤ D.natAbs := mod_cast Nat.not_lt.1 hfar
    rw [hdist, zpow_add₀ two_ne_zero, mul_comm]
    exact mul_le_mul_of_nonneg_right hD (by positivity)
  rw [minExponent] at hmin hmin' hnormal
  rw [tolerance, max_eq_left hle, mul_max_of_nonneg _ _ zero_le_two, lt_max_iff] at hlt
  rcases hlt with hlt | hlt
  · rw [← zpow_one_add₀ two_ne_zero] at hlt
    have hexp := lt_of_zpow_lt (lt_of_le_of_lt hbound hlt)
    omega
  · have ha' : |value a| = K.natAbs * 2 ^ e := by rw [hvalue, abs_mul_zpow]
    have hb' : |value b| = K'.natAbs * 2 ^ e' := by rw [hvalue', abs_mul_zpow]
    have hpos : (0 : ℚ) < 2 ^ e := by positivity
    -- The smaller operand is too small for the two to be that close.
    have hexp : min e e' + 53 < e + 2 := by
      refine lt_of_zpow_lt ?_
      have hless := ha' ▸ natCast_mul_zpow_lt hK e
      have hscale : (2 : ℚ) ^ (e + 2) = 2 * (2 ^ (-52 : Int) * 2 ^ (e + 53)) := by
        rw [← zpow_add₀ two_ne_zero, ← zpow_one_add₀ two_ne_zero]
        congr 1
        ring
      rw [hscale]
      norm_num at hlt ⊢
      linarith
    have hsmall : |value b| < 2 * 2 ^ e := by
      calc |value b| < 2 ^ (e' + 53) := hb' ▸ natCast_mul_zpow_lt hK' e'
        _ ≤ 2 ^ (e + 1) := two_zpow_le (by omega)
        _ = 2 * 2 ^ e := by rw [zpow_add_one₀ two_ne_zero, mul_comm]
    have hlarge : 2 ^ 52 * 2 ^ e ≤ |value a| := by
      have hK : (2 : ℚ) ^ 52 ≤ K.natAbs := mod_cast hnormal.resolve_right (by omega)
      exact ha' ▸ mul_le_mul_of_nonneg_right hK (le_of_lt hpos)
    have hapart : |value a| - |value b| ≤ |value a - value b| := abs_sub_abs_le_abs_sub _ _
    norm_num at hlt
    linarith

theorem exists_magnitude (ha : a.isFinite = true) (hb : b.isFinite = true)
    (hlt : tolerance (value a) (value b) < |value a - value b|) :
    ∃ r, IsMagnitude r ∧ tolerance (value a) (value b) < r ∧ r ≤ |value a - value b| := by
  have hpos := tolerance_pos (value a) (value b)
  rcases lt_or_ge |value a - value b| (2 * tolerance (value a) (value b)) with hnear | hfar
  · exact ⟨_, isMagnitude_abs_sub ha hb hnear, hlt, le_refl _⟩
  · exact ⟨_, (isMagnitude_tolerance ha hb).2, by linarith, hfar⟩

/-! ## The check -/

theorem nearlyEqual_iff_of_isFinite (ha : a.isFinite = true) (hb : b.isFinite = true) :
    nearlyEqual a b = true ↔ |value a - value b| ≤ tolerance (value a) (value b) := by
  have hgap := rounds_abs_sub ha hb
  have hfloor := rounds_value isFinite_minNormal
  have hproduct := rounds_epsilon_mul_larger ha hb
  have htolerance := (isMagnitude_tolerance ha hb).1
  rw [value_minNormal] at hfloor
  simp only [nearlyEqual, Bool.or_eq_true, decide_eq_true_eq, beq_iff_value_eq ha hb]
  constructor
  · intro h
    by_contra hfar
    obtain ⟨r, hr, hless, hle⟩ := exists_magnitude ha hb (not_le.1 hfar)
    have hcontra : r ≤ tolerance (value a) (value b) := by
      rcases h with (heq | hfloor') | hproduct'
      · rw [heq, sub_self, abs_zero] at hle
        exact le_trans hle (le_max_of_le_left (by positivity))
      · exact hgap.bounds_le hfloor hfloor' hr hle htolerance (le_max_left _ _)
      · exact hgap.bounds_le hproduct hproduct' hr hle htolerance (le_max_right _ _)
    exact absurd hless (not_lt_of_ge hcontra)
  · intro h
    rcases le_or_gt |value a - value b| (2 ^ (-1022 : Int)) with hnear | hfar
    · exact .inl (.inr (hgap.le_of_between hfloor (isMagnitude_zpow (by decide) (by decide)) hnear
        (le_refl _)))
    · have hrelative := (le_max_iff.1 h).resolve_left (not_le_of_gt hfar)
      have htolerance' : tolerance (value a) (value b) =
          2 ^ (-52 : Int) * max |value a| |value b| :=
        max_eq_right (le_of_lt (lt_of_lt_of_le hfar hrelative))
      exact .inr (hgap.le_of_between hproduct (htolerance' ▸ htolerance) hrelative (le_refl _))

/-! ## Infinite doubles -/

theorem isNaN_abs (x : Float) : x.abs.isNaN = x.isNaN := by
  show x.abs.toModel.unpack.isNaN = x.toModel.unpack.isNaN
  rw [unpack_abs]
  cases x.toModel.unpack <;> rfl

theorem unpack_of_isInf {x : Float} (h : x.isInf = true) :
    ∃ s, x.toModel.unpack = .infinity s := by
  have h : x.toModel.unpack.isInf = true := h
  cases hu : x.toModel.unpack with
  | infinity s => exact ⟨s, rfl⟩
  | notANumber | zero | finite => rw [hu] at h; cases h

theorem unpack_of_isNaN {x : Float} (h : x.isNaN = true) : x.toModel.unpack = .notANumber := by
  have h : x.toModel.unpack.isNaN = true := h
  cases hu : x.toModel.unpack with
  | notANumber => rfl
  | infinity | zero | finite => rw [hu] at h; cases h

theorem isNaN_sub_of_isInf (ha : a.isNaN = false) (hb : b.isNaN = false)
    (hinf : a.isInf = true ∨ b.isInf = true) : (a == b) = true ∨ (a - b).isNaN = false := by
  have ha : a.toModel.unpack.isNaN = false := ha
  have hb : b.toModel.unpack.isNaN = false := hb
  have heq : (a == b) = true ↔ a.toModel.unpack.compare b.toModel.unpack = some .eq :=
    beq_iff_compare
  have hsub : (sub .binary64 a.toModel.unpack b.toModel.unpack).isNaN = false →
      (a - b).isNaN = false := isNaN_unpack_pack
  cases hu : a.toModel.unpack with
  | notANumber => rw [hu] at ha; cases ha
  | infinity s =>
    rw [hu] at heq hsub
    cases hv : b.toModel.unpack with
    | notANumber => rw [hv] at hb; cases hb
    | infinity s' =>
      rw [hv] at heq hsub
      cases s <;> cases s'
      · exact .inl (heq.2 rfl)
      · exact .inr (hsub rfl)
      · exact .inr (hsub rfl)
      · exact .inl (heq.2 rfl)
    | zero | finite => exact .inr (hsub (by rw [hv]; rfl))
  | zero | finite =>
    have hfinite : a.isInf = false := congrArg Float.Model.UnpackedFloat.isInf hu
    obtain ⟨s', hv⟩ := unpack_of_isInf (hinf.resolve_left (by rw [hfinite]; exact nofun))
    exact .inr (hsub (by rw [hu, hv]; rfl))

theorem unpack_larger {x y : Float} (hx : x.isNaN = false) (hy : y.isNaN = false)
    (hinf : x.toModel.unpack = .infinity .positive ∨ y.toModel.unpack = .infinity .positive) :
    (larger x y).toModel.unpack = .infinity .positive := by
  rw [larger, hx, hy, if_neg Bool.false_ne_true, if_neg Bool.false_ne_true]
  split
  · rename_i hlt
    refine hinf.resolve_left fun hu => ?_
    rw [lt_iff_compare, hu] at hlt
    cases hv : y.toModel.unpack with
    | notANumber | zero | finite => rw [hv] at hlt; cases hlt
    | infinity s => rw [hv] at hlt; cases s <;> cases hlt
  · rename_i hle
    rcases hinf with hu | hv
    · exact hu
    have hx : x.toModel.unpack.isNaN = false := hx
    rw [lt_iff_compare, hv] at hle
    cases hu : x.toModel.unpack with
    | notANumber => rw [hu] at hx; cases hx
    | infinity s =>
      rw [hu] at hle
      cases s with
      | negative => exact absurd rfl hle
      | positive => rfl
    | zero s => rw [hu] at hle; exact absurd rfl hle
    | finite s m e hm => rw [hu] at hle; cases s <;> exact absurd rfl hle

theorem nearlyEqual_of_isInf (ha : a.isNaN = false) (hb : b.isNaN = false)
    (hinf : a.isInf = true ∨ b.isInf = true) : nearlyEqual a b = true := by
  have habs : ∀ x : Float, x.isInf = true → x.abs.toModel.unpack = .infinity .positive := by
    intro x hx
    obtain ⟨s, hu⟩ := unpack_of_isInf hx
    rw [unpack_abs, hu]
    rfl
  have hlarger : (larger a.abs b.abs).toModel.unpack = .infinity .positive :=
    unpack_larger (isNaN_abs a ▸ ha) (isNaN_abs b ▸ hb) (hinf.imp (habs a) (habs b))
  have hproduct : (epsilon * larger a.abs b.abs).toModel.unpack = .infinity .positive := by
    show (Float.Model.pack (mul .binary64 epsilon.toModel.unpack
      (larger a.abs b.abs).toModel.unpack)).unpack = _
    rw [hlarger, unpack_epsilon]
    exact unpack_pack_infinity .positive
  simp only [nearlyEqual, Bool.or_eq_true, decide_eq_true_eq]
  rcases isNaN_sub_of_isInf ha hb hinf with heq | hnan
  · exact .inl (.inl heq)
  · exact .inr (le_infinity (isNaN_abs (a - b) ▸ hnan) hproduct)

/-! ## Not-a-number -/

theorem isNaN_sub_of_isNaN (h : a.isNaN = true ∨ b.isNaN = true) : (a - b).isNaN = true := by
  have hsub : sub .binary64 a.toModel.unpack b.toModel.unpack = .notANumber := by
    rcases h with h | h <;> rw [unpack_of_isNaN h]
    · rfl
    · cases a.toModel.unpack <;> rfl
  show (Float.Model.pack (sub .binary64 a.toModel.unpack b.toModel.unpack)).unpack.isNaN = true
  rw [hsub]
  rfl

theorem compare_of_isNaN (h : a.isNaN = true ∨ b.isNaN = true) :
    a.toModel.unpack.compare b.toModel.unpack = none := by
  rcases h with h | h <;> rw [unpack_of_isNaN h]
  · rfl
  · cases a.toModel.unpack <;> rfl

theorem not_le_of_isNaN (h : a.isNaN = true ∨ b.isNaN = true) : ¬a ≤ b := by
  rw [le_iff_compare, compare_of_isNaN h]
  exact Bool.false_ne_true

theorem nearlyEqual_of_isNaN (h : a.isNaN = true ∨ b.isNaN = true) : nearlyEqual a b = false := by
  have hgap : (a - b).abs.isNaN = true := by rw [isNaN_abs, isNaN_sub_of_isNaN h]
  have heq : (a == b) = false := by
    rw [← Bool.not_eq_true, beq_iff_compare, compare_of_isNaN h]
    exact nofun
  simp only [nearlyEqual, heq, Bool.false_or, Bool.or_eq_false_iff, decide_eq_false_iff_not]
  exact ⟨not_le_of_isNaN (.inl hgap), not_le_of_isNaN (.inl hgap)⟩

/-! ## The check of any two doubles -/

/-- **Two doubles count as equal exactly if both are numbers and one of them is infinite or the
exact distance between them is within the tolerance.** -/
theorem nearlyEqual_iff (a b : Float) :
    nearlyEqual a b = true ↔ a.isNaN = false ∧ b.isNaN = false ∧
      (a.isInf = true ∨ b.isInf = true ∨
        |value a - value b| ≤ tolerance (value a) (value b)) := by
  by_cases hnan : a.isNaN = true ∨ b.isNaN = true
  · rw [nearlyEqual_of_isNaN hnan]
    constructor
    · nofun
    · rintro ⟨ha, hb, -⟩
      rw [ha, hb] at hnan
      rcases hnan with h | h <;> cases h
  rw [not_or, Bool.not_eq_true, Bool.not_eq_true] at hnan
  obtain ⟨ha, hb⟩ := hnan
  by_cases hinf : a.isInf = true ∨ b.isInf = true
  · exact ⟨fun _ => ⟨ha, hb, hinf.elim .inl (.inr ∘ .inl)⟩,
      fun _ => nearlyEqual_of_isInf ha hb hinf⟩
  rw [not_or] at hinf
  rw [nearlyEqual_iff_of_isFinite ((isFinite_or_isInf ha).resolve_right hinf.1)
    ((isFinite_or_isInf hb).resolve_right hinf.2)]
  constructor
  · exact fun h => ⟨ha, hb, .inr (.inr h)⟩
  · rintro ⟨-, -, h | h | h⟩
    · exact absurd h hinf.1
    · exact absurd h hinf.2
    · exact h

theorem nearlyEqual_comm (a b : Float) : nearlyEqual a b = nearlyEqual b a := by
  rw [Bool.eq_iff_iff, nearlyEqual_iff, nearlyEqual_iff, abs_sub_comm, tolerance_comm]
  tauto

end Double

/-! ## The comparisons of expressions -/

namespace BinaryOp

open Double (value tolerance)

variable {x y : Float}

theorem apply_lessOrEqual_of_isFinite (hx : x.isFinite = true) (hy : y.isFinite = true) :
    lessOrEqual.apply x y =
      truth (decide (value x - value y ≤ tolerance (value x) (value y))) := by
  have hpos := Double.tolerance_pos (value x) (value y)
  refine congrArg truth (Bool.eq_iff_iff.2 ?_)
  rw [Bool.or_eq_true, decide_eq_true_eq, decide_eq_true_eq, Double.lt_iff_value_lt hx hy,
    Double.nearlyEqual_iff_of_isFinite hx hy]
  constructor
  · rintro (hlt | hclose)
    · linarith
    · exact le_of_abs_le hclose
  · intro hle
    rcases lt_or_ge (value x) (value y) with hlt | hge
    · exact .inl hlt
    · exact .inr ((abs_of_nonneg (sub_nonneg.2 hge)).le.trans hle)

theorem apply_greaterOrEqual (x y : Float) : greaterOrEqual.apply x y = lessOrEqual.apply y x := by
  show truth (x > y || Double.nearlyEqual x y) = truth (y < x || Double.nearlyEqual y x)
  rw [Double.nearlyEqual_comm]

/-- To these comparisons an infinite operand is equal to any number, also to the opposite
infinity. -/
theorem apply_of_isInf (hx : x.isNaN = false) (hy : y.isNaN = false)
    (hinf : x.isInf = true ∨ y.isInf = true) :
    equal.apply x y = 1 ∧ notEqual.apply x y = 0 ∧ lessOrEqual.apply x y = 1 ∧
      greaterOrEqual.apply x y = 1 := by
  have heq := Double.nearlyEqual_of_isInf hx hy hinf
  simp only [apply, heq, Bool.or_true, Bool.not_true]
  exact ⟨rfl, rfl, rfl, rfl⟩

theorem apply_of_isInf_one :
    equal.apply (1 / 0) 1 = 1 ∧ notEqual.apply (1 / 0) 1 = 0 ∧ lessOrEqual.apply (1 / 0) 1 = 1 ∧
      greaterOrEqual.apply (1 / 0) 1 = 1 :=
  apply_of_isInf (by decide +kernel) (by decide +kernel) (.inl (by decide +kernel))

end BinaryOp

end Bytebeat
