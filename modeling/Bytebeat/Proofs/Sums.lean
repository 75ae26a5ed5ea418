import Bytebeat.Frame
import Bytebeat.Proofs.Truncation

/-!
# Sums of doubles

Adding a finite double to a number gives a number (`isNaN_add`). The multiples
of `1 / 128` that a double can hold are added exactly (`level_add_level`). Bytes
are heard as such (`byteToUnit_eq_level`), so that the sample which is made of a
sum of them is known to the last bit (`sampleOfUnit_level`).
-/

namespace Bytebeat.Double

open Float.Model (Format UnpackedFloat totalExponent)
open Float.Model.UnpackedFloat

/-! ## Not-a-number -/

theorem isNaN_normalize (spec : Format) (m e : Int) (s : Sign) :
    (Float.Model.UnpackedFloat.normalize spec m e s).isNaN = false := by
  unfold Float.Model.UnpackedFloat.normalize
  split
  · exact isNaN_roundWithAccuracy _ _ _ _ _
  · rfl
  · exact isNaN_roundWithAccuracy _ _ _ _ _

theorem isNaN_add {x y : Float} (hx : x.isNaN = false) (hy : y.isFinite = true) :
    (x + y).isNaN = false := by
  have hnan : x.toModel.unpack.isNaN = false := hx
  have hfinite : y.toModel.unpack.isFinite = true := hy
  refine isNaN_unpack_pack (u := add .binary64 x.toModel.unpack y.toModel.unpack) ?_
  cases hv : y.toModel.unpack with
  | notANumber | infinity => rw [hv] at hfinite; cases hfinite
  | zero s =>
    cases hu : x.toModel.unpack with
    | notANumber => rw [hu] at hnan; cases hnan
    | infinity | finite => rfl
    | zero s' => cases s <;> cases s' <;> rfl
  | finite s m e hm =>
    cases hu : x.toModel.unpack with
    | notANumber => rw [hu] at hnan; cases hnan
    | infinity | zero => rfl
    | finite s' m' e' hm' => exact isNaN_normalize _ _ _ _

/-! ## Rounding a number written in any way -/

/-- A number that is a double is rounded to it, however its magnitude is written. -/
theorem Canonical.round_eq {m : Nat} {e : Int} (h : Canonical m e) (s : Sign) {n i j : Nat}
    {E : Int} (hvalue : n * 2 ^ i = m * 2 ^ j) (hE : E - i = e - j) :
    Float.Model.UnpackedFloat.round .binary64 s n E = .finite s m e h.pos := by
  have hn : 0 < n := Nat.pos_of_mul_pos_right (hvalue ▸ Nat.mul_pos h.pos (Nat.two_pow_pos j))
  have htarget : Format.binary64.targetExponent (totalExponent n E) = e := by
    have hlog : n.log2 + i = m.log2 + j := by
      rw [← log2_mul_two_pow hn, hvalue, log2_mul_two_pow h.pos]
    have htotal : totalExponent n E = totalExponent m e := by
      simp only [totalExponent]
      omega
    rw [htotal, h.targetExponent_eq]
  -- What the exponent is decreased by, and what it is increased by again.
  obtain ⟨d, hd⟩ : ∃ d, d = (E - e).toNat := ⟨_, rfl⟩
  obtain ⟨r, hr⟩ : ∃ r, r = (e - E).toNat := ⟨_, rfl⟩
  have hmantissa : n * 2 ^ d = m * 2 ^ r := by
    refine Nat.eq_of_mul_eq_mul_right (Nat.two_pow_pos i) ?_
    calc n * 2 ^ d * 2 ^ i = n * 2 ^ i * 2 ^ d := by ring
      _ = m * 2 ^ (j + d) := by rw [hvalue]; ring
      _ = m * 2 ^ (r + i) := by congr 2; omega
      _ = m * 2 ^ r * 2 ^ i := by ring
  simp only [Float.Model.UnpackedFloat.round, htarget, decreaseExponent, ← hd, Nat.shiftLeft_eq,
    hmantissa]
  exact h.round_exact s (by omega)

/-! ## Multiples of a power of two -/

def signOf (k : Int) : Sign := if k < 0 then .negative else .positive

def mantissaOf (k : Int) : Nat := k.natAbs * 2 ^ (52 - k.natAbs.log2)

theorem canonical_mantissaOf {k : Int} (hk : k ≠ 0) (hlt : k.natAbs < 2 ^ 53) {e : Int}
    (he : -1022 ≤ e) : Canonical (mantissaOf k) (e - (52 - k.natAbs.log2 : Nat)) := by
  have h := canonical_of_lt (Int.natAbs_pos.2 hk) hlt
  refine ⟨h.pos, h.lt, ?_, .inl (h.normal.resolve_right ?_)⟩
  · rw [minExponent]
    omega
  · rw [minExponent]
    omega

/-- A number of at most 53 bits with a power of two is not rounded, whatever zeros stand behind
it. -/
theorem normalize_eq {k : Int} (hk : k ≠ 0) (hlt : k.natAbs < 2 ^ 53) {e : Int} (he : -1022 ≤ e)
    (j : Nat) (zero : Sign) :
    Float.Model.UnpackedFloat.normalize .binary64 (k * 2 ^ j) (e - j) zero =
      .finite (signOf k) (mantissaOf k) (e - (52 - k.natAbs.log2 : Nat))
        (canonical_mantissaOf hk hlt he).pos := by
  have hround := (canonical_mantissaOf hk hlt he).round_eq (signOf k) (n := k.natAbs * 2 ^ j)
    (i := 52 - k.natAbs.log2) (j := j) (E := e - j) (by rw [mantissaOf]; ring) (by omega)
  rw [← hround, Float.Model.UnpackedFloat.normalize]
  have hpow : (0 : Int) < 2 ^ j := by positivity
  have hmagnitude : (k * 2 ^ j).natAbs = k.natAbs * 2 ^ j := by
    rw [Int.natAbs_mul, Int.natAbs_pow]
    rfl
  rcases Int.lt_or_gt_of_ne hk with hneg | hpos
  · have hless := Int.mul_neg_of_neg_of_pos hneg hpow
    rw [Int.compare_eq_lt.2 hless, signOf, if_pos hneg, ← hmagnitude]
    exact congrArg (Float.Model.UnpackedFloat.round .binary64 .negative · _) (by omega)
  · have hgreater := Int.mul_pos hpos hpow
    rw [Int.compare_eq_gt.2 hgreater, signOf, if_neg (Int.lt_asymm hpos), ← hmagnitude]
    exact congrArg (Float.Model.UnpackedFloat.round .binary64 .positive · _) (by omega)

/-! ## Levels -/

def unpackedLevel (k : Int) : UnpackedFloat :=
  Float.Model.UnpackedFloat.normalize .binary64 k (-7) .positive

/-- The double `k / 128`. -/
def level (k : Int) : Float := .ofModel (.pack (unpackedLevel k))

theorem unpackedLevel_eq {k : Int} (hk : k ≠ 0) (hlt : k.natAbs < 2 ^ 53) :
    unpackedLevel k =
      .finite (signOf k) (mantissaOf k) (-7 - (52 - k.natAbs.log2 : Nat))
        (canonical_mantissaOf hk hlt (e := -7) (by decide)).pos := by
  have hnormal := normalize_eq hk hlt (e := -7) (by decide) 0 .positive
  rwa [pow_zero, Int.mul_one, Int.natCast_zero, Int.sub_zero] at hnormal

theorem unpack_level {k : Int} (hlt : k.natAbs < 2 ^ 53) :
    (level k).toModel.unpack = unpackedLevel k := by
  by_cases hk : k = 0
  · subst hk
    rfl
  · show (Float.Model.pack (unpackedLevel k)).unpack = _
    rw [unpackedLevel_eq hk hlt]
    exact (canonical_mantissaOf hk hlt (by decide)).unpack_pack (by omega) _

theorem isFinite_level {k : Int} (hlt : k.natAbs < 2 ^ 53) : (level k).isFinite = true := by
  show (level k).toModel.unpack.isFinite = true
  rw [unpack_level hlt]
  by_cases hk : k = 0
  · subst hk
    rfl
  · rw [unpackedLevel_eq hk hlt]
    rfl

theorem apply_decreaseExponent {k : Int} {j : Nat} (hj : 52 - k.natAbs.log2 ≤ j) :
    (signOf k).apply
      ((decreaseExponent (mantissaOf k) (-7 - (52 - k.natAbs.log2 : Nat)) (-7 - j)).1 : Nat) =
        k * 2 ^ j := by
  have hshift : (-7 - (52 - k.natAbs.log2 : Nat) - (-7 - j) : Int).toNat =
      j - (52 - k.natAbs.log2) := by omega
  have hmantissa : mantissaOf k * 2 ^ (j - (52 - k.natAbs.log2)) = k.natAbs * 2 ^ j := by
    rw [mantissaOf, Nat.mul_assoc, ← Nat.pow_add, Nat.add_sub_cancel' hj]
  simp only [decreaseExponent, hshift, Nat.shiftLeft_eq, hmantissa, Nat.cast_mul, signOf]
  rcases Int.lt_or_le k 0 with hneg | hnonneg
  · rw [if_pos hneg, Sign.apply, Int.ofNat_natAbs_of_nonpos (Int.le_of_lt hneg), Int.neg_mul,
      Int.neg_neg]
    rfl
  · rw [if_neg (Int.not_lt.2 hnonneg), Sign.apply, Int.natAbs_of_nonneg hnonneg]
    rfl

theorem add_unpackedLevel {a b : Int} (ha : a.natAbs < 2 ^ 53) (hb : b.natAbs < 2 ^ 53)
    (hab : (a + b).natAbs < 2 ^ 53) :
    add .binary64 (unpackedLevel a) (unpackedLevel b) = unpackedLevel (a + b) := by
  by_cases hzero : a = 0
  · subst hzero
    rw [Int.zero_add]
    by_cases hb0 : b = 0
    · subst hb0
      rfl
    · rw [unpackedLevel_eq hb0 hb]
      rfl
  by_cases hb0 : b = 0
  · subst hb0
    rw [Int.add_zero, unpackedLevel_eq hzero ha]
    rfl
  obtain ⟨j, hj⟩ : ∃ j, j = max (52 - a.natAbs.log2) (52 - b.natAbs.log2) := ⟨_, rfl⟩
  have hmin : min (-7 - (52 - a.natAbs.log2 : Nat) : Int) (-7 - (52 - b.natAbs.log2 : Nat)) =
      -7 - j := by omega
  have hsum : add .binary64 (unpackedLevel a) (unpackedLevel b) =
      Float.Model.UnpackedFloat.normalize .binary64 ((a + b) * 2 ^ j) (-7 - j) .positive := by
    rw [unpackedLevel_eq hzero ha, unpackedLevel_eq hb0 hb, Int.add_mul,
      ← apply_decreaseExponent (k := a) (j := j) (by omega),
      ← apply_decreaseExponent (k := b) (j := j) (by omega)]
    simp only [add, hmin]
  rw [hsum]
  by_cases hab0 : a + b = 0
  · rw [hab0, Int.zero_mul]
    rfl
  · rw [normalize_eq hab0 hab (by decide), unpackedLevel_eq hab0 hab]

theorem level_add_level {a b : Int} (ha : a.natAbs < 2 ^ 53) (hb : b.natAbs < 2 ^ 53)
    (hab : (a + b).natAbs < 2 ^ 53) : level a + level b = level (a + b) := by
  show Float.ofModel (.pack (add .binary64 (level a).toModel.unpack (level b).toModel.unpack)) = _
  rw [unpack_level ha, unpack_level hb, add_unpackedLevel ha hb hab]
  rfl

/-! ## Bytes -/

theorem unpack_ofNat {n : Nat} (hn : 0 < n) (hlt : n < 2 ^ 53) :
    (Float.ofNat n).toModel.unpack =
      .finite .positive (n * 2 ^ (52 - n.log2)) (-(52 - n.log2 : Nat))
        (canonical_of_lt hn hlt).pos := by
  have hone : (getElem Float.exactlyRepresentablePowersOfTen 0 (by decide)).toModel.unpack =
      .finite .positive (2 ^ 52) (-52) (by decide) := rfl
  have hproduct : Float.ofNat n = n.toUInt64.toFloat *
      getElem Float.exactlyRepresentablePowersOfTen 0 (by decide) :=
    dif_pos ⟨hlt, Nat.zero_le 22⟩
  rw [hproduct]
  show (Float.Model.pack (mul .binary64 n.toUInt64.toFloat.toModel.unpack
    (getElem Float.exactlyRepresentablePowersOfTen 0 (by decide)).toModel.unpack)).unpack = _
  rw [unpack_toFloat_nat hn hlt, hone,
    (canonical_of_lt hn hlt).mul_exact (j := 52) _ _ rfl (by omega)]
  exact (canonical_of_lt hn hlt).unpack_pack (by omega) _

theorem ofNat_div_eq_level {n : Nat} (hlt : n < 2 ^ 53) : Float.ofNat n / 128 = level n := by
  rcases Nat.eq_zero_or_pos n with rfl | hn
  · decide +kernel
  have hcanonical := canonical_mantissaOf (k := n) (by omega) hlt (e := -7) (by decide)
  have hdivisor : (128 : Float).toModel.unpack = .finite .positive (2 ^ 52) (-45) (by decide) := rfl
  apply eq_of_unpack_eq
  show (Float.Model.pack (div .binary64 (Float.ofNat n).toModel.unpack
    (128 : Float).toModel.unpack)).unpack = _
  rw [unpack_ofNat hn hlt, hdivisor, hcanonical.div_exact (a := 52) (b := 0) _ _
    (by rw [mantissaOf, Int.natAbs_natCast]; ring) (by rw [Int.natAbs_natCast]; omega),
    hcanonical.unpack_pack (by omega), unpack_level (k := n) hlt,
    unpackedLevel_eq (k := n) (by omega) hlt]
  simp only [signOf, if_neg (Int.not_lt.2 (Int.natCast_nonneg n))]

theorem sub_one_eq (x : Float) : x - 1 = x + level (-128) := by
  have hone : (1 : Float).toModel.unpack = .finite .positive (2 ^ 52) (-52) (by decide) := rfl
  have hlevel : (level (-128)).toModel.unpack = .finite .negative (2 ^ 52) (-52) (by decide) := rfl
  have hsub : sub .binary64 x.toModel.unpack (1 : Float).toModel.unpack =
      add .binary64 x.toModel.unpack (level (-128)).toModel.unpack := by
    rw [hone, hlevel]
    cases x.toModel.unpack with
    | notANumber | infinity | zero => rfl
    | finite s m e hm => simp only [sub, add, Sign.apply, Int.sub_eq_add_neg]
  exact congrArg (fun u => Float.ofModel (Float.Model.pack u)) hsub

theorem byteToUnit_eq_level (v : Float) :
    ∃ k : Int, -128 ≤ k ∧ k < 128 ∧ byteToUnit v = level k := by
  obtain ⟨b, hb⟩ :=
    Int.eq_ofNat_of_zero_le (Int.emod_nonneg (toInt64 v).toInt (b := 256) (by decide))
  have hlt : b < 256 := by omega
  refine ⟨b + -128, by omega, by omega, ?_⟩
  rw [byteToUnit, hb]
  show Float.ofNat b / 128 - 1 = _
  rw [ofNat_div_eq_level (by omega), sub_one_eq,
    level_add_level (by omega) (by decide) (by omega)]

/-! ## Samples -/

/-- The sample for `k / 128`, clamped to the range from `-1` to `1`. -/
def sampleOfLevel (k : Int) : Int := (fullScale * max (-128) (min 128 k)).tdiv 128

theorem tdiv_eq (p : Int) :
    p.tdiv 128 = if p < 0 then -((p.natAbs / 128 : Nat) : Int) else (p.natAbs / 128 : Nat) := by
  cases p with
  | ofNat n => rfl
  | negSucc n =>
    rw [if_pos (Int.negSucc_lt_zero n)]
    rfl

theorem sampleOfLevel_bounds (k : Int) :
    -fullScale ≤ sampleOfLevel k ∧ sampleOfLevel k ≤ fullScale := by
  rw [sampleOfLevel, tdiv_eq]
  unfold fullScale
  split <;> omega

theorem level_mul_fullScale {k : Int} (hk : (fullScale * k).natAbs < 2 ^ 53) :
    level k * Float.ofInt fullScale = level (fullScale * k) := by
  have habs : (fullScale * k).natAbs = 32767 * k.natAbs := Int.natAbs_mul _ _
  by_cases hzero : k = 0
  · subst hzero
    decide +kernel
  have hzero' : fullScale * k ≠ 0 := Int.mul_ne_zero (by decide) hzero
  have hlt : k.natAbs < 2 ^ 53 := by omega
  have hcanonical := canonical_mantissaOf hzero' hk (e := -7) (by decide)
  have hscale : (Float.ofInt fullScale).toModel.unpack =
      .finite .positive (32767 * 2 ^ 38) (-38) (by decide) := rfl
  have hsign : signOf k * .positive = signOf (fullScale * k) := by
    have hneg : fullScale * k < 0 ↔ k < 0 := by
      unfold fullScale
      omega
    simp only [signOf, hneg]
    split <;> rfl
  have hlog : k.natAbs.log2 ≤ (fullScale * k).natAbs.log2 := by
    rw [Nat.le_log2 (by omega)]
    exact Nat.le_trans (Nat.log2_self_le (by omega)) (by omega)
  have hlog' : (fullScale * k).natAbs.log2 < 53 := (Nat.log2_lt (by omega)).2 hk
  have hproduct : mantissaOf k * (32767 * 2 ^ 38) = mantissaOf (fullScale * k) *
      2 ^ ((fullScale * k).natAbs.log2 - k.natAbs.log2 + 38) := by
    have hpow : 2 ^ (52 - k.natAbs.log2) = 2 ^ (52 - (fullScale * k).natAbs.log2) *
        2 ^ ((fullScale * k).natAbs.log2 - k.natAbs.log2) := by
      rw [← Nat.pow_add]
      congr 1
      omega
    rw [mantissaOf, mantissaOf, hpow, Nat.pow_add, habs]
    ring
  apply eq_of_unpack_eq
  show (Float.Model.pack (mul .binary64 (level k).toModel.unpack
    (Float.ofInt fullScale).toModel.unpack)).unpack = _
  rw [unpack_level hlt, unpackedLevel_eq hzero hlt, hscale, mul, hsign, hproduct,
    hcanonical.round_exact _ (by omega), hcanonical.unpack_pack (by omega), unpack_level hk,
    unpackedLevel_eq hzero' hk]

theorem toUInt64_abs_level {p : Int} (hp : p.natAbs < 2 ^ 53) :
    (level p).abs.toUInt64.toNat = p.natAbs / 128 := by
  by_cases hzero : p = 0
  · subst hzero
    decide +kernel
  have hcanonical := canonical_mantissaOf hzero hp (e := -7) (by decide)
  have hlog : p.natAbs.log2 < 53 := (Nat.log2_lt (by omega)).2 hp
  show (UInt64.ofNatClamp (((Float.Model.pack (level p).toModel.unpack.abs).unpack.toInt 0
    (UInt64.size - 1)).toNat)).toNat = _
  rw [unpack_level hp, unpackedLevel_eq hzero hp, Float.Model.UnpackedFloat.abs,
    hcanonical.unpack_pack (by omega)]
  have hexp : (-7 - (52 - p.natAbs.log2 : Nat) : Int) = -(52 - p.natAbs.log2 + 7 : Nat) := by omega
  have hpart : mantissaOf p / 2 ^ (52 - p.natAbs.log2 + 7) = p.natAbs / 128 := by
    rw [mantissaOf, Nat.pow_add, Nat.mul_comm p.natAbs, Nat.mul_div_mul_left _ _ (by positivity)]
  have hint : toInt 0 (UInt64.size - 1) (.finite .positive (mantissaOf p)
      (-7 - (52 - p.natAbs.log2 : Nat)) hcanonical.pos) = (p.natAbs / 128 : Nat) := by
    show roundToInt .positive (mantissaOf p) _ = _
    rw [hexp, roundToInt_eq, hpart]
    rfl
  rw [hint, Int.toNat_natCast, toNat_ofNatClamp]
  exact Nat.min_eq_left (Nat.le_trans (Nat.div_le_self _ _) (Nat.le_of_lt_succ
    (Nat.lt_trans hp (by decide))))

theorem level_lt_zero {p : Int} (hp : p.natAbs < 2 ^ 53) : level p < 0 ↔ p < 0 := by
  have hless : level p < 0 ↔ (level p).toModel.unpack.lt (.zero .positive) = true :=
    decide_eq_true_iff (p := (level p).toModel < (0 : Float).toModel)
  rw [hless, unpack_level hp]
  by_cases hzero : p = 0
  · subst hzero
    decide
  · rw [unpackedLevel_eq hzero hp, signOf]
    by_cases hneg : p < 0
    · simp only [hneg, iff_true]
      rfl
    · simp only [hneg, iff_false]
      exact Bool.false_ne_true

theorem truncate_level {p : Int} (hp : p.natAbs < 2 ^ 53) (lo hi : Int) :
    truncate lo hi (level p) = max lo (min hi (p.tdiv 128)) := by
  simp only [truncate, toUInt64_abs_level hp, level_lt_zero hp, tdiv_eq]

theorem sampleOfUnit_level {k : Int} (hk : k.natAbs ≤ 2 ^ 37) :
    sampleOfUnit (level k) = Int16.ofInt (sampleOfLevel k) := by
  have hlt : (fullScale * k).natAbs < 2 ^ 53 := by
    unfold fullScale
    omega
  rw [sampleOfUnit, level_mul_fullScale hlt, truncate_level hlt, sampleOfLevel, tdiv_eq, tdiv_eq]
  unfold fullScale
  congr 1
  split <;> split <;> omega

end Bytebeat.Double
