import Bytebeat.Double.Parts
import Mathlib

/-!
# Exact operations on doubles

`Canonical m e`: `m * 2 ^ e` is the magnitude of a nonzero double, with the
mantissa and the exponent that a double has. Rounding such a number keeps it
(`round_exact`), and so a quotient that is one is computed exactly
(`div_exact`).
-/

namespace Bytebeat.Double

open Float.Model (Format totalExponent)
open Float.Model.UnpackedFloat

/-- A mantissa of 53 bits, the first of which is zero only at the least exponent. -/
structure Canonical (m : Nat) (e : Int) : Prop where
  pos : 0 < m
  lt : m < 2 ^ 53
  minExponent_le : minExponent ≤ e
  normal : 2 ^ 52 ≤ m ∨ e = minExponent

theorem log2_mul_two_pow {m : Nat} (hm : 0 < m) (j : Nat) : (m * 2 ^ j).log2 = m.log2 + j := by
  rw [Nat.log2_eq_iff (Nat.ne_of_gt (Nat.mul_pos hm (Nat.two_pow_pos j)))]
  obtain ⟨hle, hlt⟩ := (Nat.log2_eq_iff (Nat.ne_of_gt hm)).1 rfl
  constructor
  · rw [Nat.pow_add]
    exact Nat.mul_le_mul_right _ hle
  · rw [Nat.add_right_comm, Nat.pow_add]
    exact Nat.mul_lt_mul_of_pos_right hlt (Nat.two_pow_pos j)

theorem Canonical.targetExponent_eq {m : Nat} {e : Int} (h : Canonical m e) :
    Format.binary64.targetExponent (totalExponent m e) = e := by
  obtain ⟨hpos, hlt, hmin, hnormal⟩ := h
  have hlog : m.log2 < 53 := (Nat.log2_lt (Nat.ne_of_gt hpos)).2 hlt
  have hlog' : 52 ≤ m.log2 ∨ e = -1074 :=
    hnormal.imp_left (Nat.le_log2 (Nat.ne_of_gt hpos)).2
  rw [minExponent] at hmin
  simp only [Format.targetExponent, totalExponent, Format.mantissaBits, Format.minExponent]
  omega

theorem shiftRight_mul_two_pow (m j : Nat) :
    (⟨m * 2 ^ j, false, false⟩ : ExtendedMantissa) >>> j = ⟨m, false, false⟩ := by
  induction j generalizing m with
  | zero => rw [Nat.pow_zero, Nat.mul_one]; rfl
  | succ j ih =>
    have hj : m * 2 ^ (j + 1) = 2 * m * 2 ^ j := by ring
    change ((⟨m * 2 ^ (j + 1), false, false⟩ : ExtendedMantissa) >>> j).shiftRightOne = _
    rw [hj, ih]
    simp [ExtendedMantissa.shiftRightOne]

theorem Canonical.shift_eq {m : Nat} {e : Int} (h : Canonical m e) {E : Int} {j : Nat}
    (hE : E + j = e) :
    shiftToTargetExponent .binary64 (m * 2 ^ j) E .exact = (⟨m, false, false⟩, e) := by
  have htotal : totalExponent (m * 2 ^ j) E = totalExponent m e := by
    rw [totalExponent, totalExponent, log2_mul_two_pow h.pos, ← hE]
    omega
  have hshift : (e - E).toNat = j := by omega
  rw [shiftToTargetExponent, htotal, h.targetExponent_eq, shiftToExponent, hshift,
    ExtendedMantissa.ofMantissaAndAccuracy, shiftRight_mul_two_pow, hE]

/-- Rounding keeps what is a double already. -/
theorem Canonical.round_exact {m : Nat} {e : Int} (h : Canonical m e) (s : Sign) {E : Int} {j : Nat}
    (hE : E + j = e) :
    roundWithAccuracy .binary64 s (m * 2 ^ j) E .exact = .finite s m e h.pos := by
  have hagain := h.shift_eq (E := e) (j := 0) (by omega)
  rw [Nat.pow_zero, Nat.mul_one] at hagain
  have hround : (⟨m, false, false⟩ : ExtendedMantissa).roundedMantissa = m := rfl
  simp only [roundWithAccuracy, h.shift_eq hE, hround, hagain]
  rw [dif_neg (Nat.ne_of_gt h.pos)]

/-! ## Products and quotients -/

theorem Canonical.mul_exact {m m₁ m₂ : Nat} {e e₁ e₂ : Int} (h : Canonical m e) (h₁ : 0 < m₁)
    (h₂ : 0 < m₂) {j : Nat} (hm : m₁ * m₂ = m * 2 ^ j) (he : e₁ + e₂ + j = e) :
    mul .binary64 (.finite .positive m₁ e₁ h₁) (.finite .positive m₂ e₂ h₂) =
      .finite .positive m e h.pos := by
  rw [mul, hm]
  exact h.round_exact _ he

/-- The exponents of two numbers tell the exponent of their quotient up to one. -/
theorem totalExponent_sub_le {m m₁ m₂ a b : Nat} {e e₁ e₂ : Int} (hm : 0 < m) (h₁ : 0 < m₁)
    (h₂ : 0 < m₂) (hvalue : m₁ * 2 ^ a = m * m₂ * 2 ^ b) (hexp : e₁ - a = e + e₂ - b) :
    totalExponent m₁ e₁ - totalExponent m₂ e₂ ≤ totalExponent m e := by
  have hlog : m₁.log2 + a = (m * m₂).log2 + b := by
    rw [← log2_mul_two_pow h₁, hvalue, log2_mul_two_pow (Nat.mul_pos hm h₂)]
  have hmul : (m * m₂).log2 < m.log2 + m₂.log2 + 2 := by
    rw [Nat.log2_lt (Nat.ne_of_gt (Nat.mul_pos hm h₂))]
    calc m * m₂ < 2 ^ (m.log2 + 1) * 2 ^ (m₂.log2 + 1) :=
          Nat.mul_lt_mul_of_lt_of_lt Nat.lt_log2_self Nat.lt_log2_self
      _ = 2 ^ (m.log2 + m₂.log2 + 2) := by ring
  simp only [totalExponent]
  omega

theorem Canonical.div_exact {m m₁ m₂ a b : Nat} {e e₁ e₂ : Int} (h : Canonical m e) (h₁ : 0 < m₁)
    (h₂ : 0 < m₂) (hvalue : m₁ * 2 ^ a = m * m₂ * 2 ^ b) (hexp : e₁ - a = e + e₂ - b) :
    div .binary64 (.finite .positive m₁ e₁ h₁) (.finite .positive m₂ e₂ h₂) =
      .finite .positive m e h.pos := by
  -- The exponent of the quotient before it is rounded.
  obtain ⟨t, ht⟩ : ∃ t, t = min (e₁ - e₂) (Format.binary64.targetExponent
      (totalExponent m₁ e₁ - totalExponent m₂ e₂)) := ⟨_, rfl⟩
  have hte : t ≤ e := by
    have hsub := totalExponent_sub_le h.pos h₁ h₂ hvalue hexp
    have htarget := h.targetExponent_eq
    simp only [Format.targetExponent] at ht htarget
    omega
  have hshift : m₁ <<< (e₁ - e₂ - t).toNat = m * 2 ^ (e - t).toNat * m₂ := by
    rw [Nat.shiftLeft_eq]
    refine Nat.eq_of_mul_eq_mul_right (Nat.two_pow_pos a) ?_
    calc m₁ * 2 ^ (e₁ - e₂ - t).toNat * 2 ^ a = m₁ * 2 ^ a * 2 ^ (e₁ - e₂ - t).toNat := by ring
      _ = m * m₂ * 2 ^ (b + (e₁ - e₂ - t).toNat) := by rw [hvalue]; ring
      _ = m * m₂ * 2 ^ ((e - t).toNat + a) := by congr 2; omega
      _ = m * 2 ^ (e - t).toNat * m₂ * 2 ^ a := by ring
  have hcore : divCore .binary64 m₁ e₁ m₂ e₂ = (m * 2 ^ (e - t).toNat, t, .exact) := by
    simp only [divCore, ← ht, hshift, Nat.mul_div_cancel _ h₂, Nat.mul_mod_left,
      accuracyOfFraction, if_true]
  rw [div, hcore]
  exact h.round_exact _ (by omega)

/-! ## Natural numbers -/

theorem canonical_of_lt {n : Nat} (hn : 0 < n) (hlt : n < 2 ^ 53) :
    Canonical (n * 2 ^ (52 - n.log2)) (-(52 - n.log2 : Nat)) := by
  have hlog : n.log2 < 53 := (Nat.log2_lt (Nat.ne_of_gt hn)).2 hlt
  have hpos : 0 < n * 2 ^ (52 - n.log2) := Nat.mul_pos hn (Nat.two_pow_pos _)
  have htop : (n * 2 ^ (52 - n.log2)).log2 = 52 := by
    rw [log2_mul_two_pow hn]
    omega
  obtain ⟨hle, hlt⟩ := (Nat.log2_eq_iff (Nat.ne_of_gt hpos)).1 htop
  refine ⟨hpos, hlt, ?_, .inl hle⟩
  rw [minExponent]
  omega

theorem ofNat_exact {n : Nat} (hn : 0 < n) (hlt : n < 2 ^ 53) :
    ofNat .binary64 n = .finite .positive (n * 2 ^ (52 - n.log2)) (-(52 - n.log2 : Nat))
      (canonical_of_lt hn hlt).pos := by
  have hlog : n.log2 < 53 := (Nat.log2_lt (Nat.ne_of_gt hn)).2 hlt
  have htarget : Format.binary64.targetExponent (totalExponent n 0) = -(52 - n.log2 : Nat) := by
    simp only [Format.targetExponent, totalExponent, Format.mantissaBits, Format.minExponent]
    omega
  have hround := (canonical_of_lt hn hlt).round_exact .positive (E := -(52 - n.log2 : Nat))
    (j := 0) (by omega)
  rw [Nat.pow_zero, Nat.mul_one] at hround
  rw [ofNat, ofInt, Float.Model.UnpackedFloat.normalize, Int.compare_eq_gt.2 (by omega)]
  simp only [Int.toNat_natCast, Float.Model.UnpackedFloat.round, htarget, decreaseExponent,
    Nat.shiftLeft_eq, Int.zero_sub, Int.neg_neg, hround]

theorem isNaN_roundWithAccuracy (spec : Format) (s : Sign) (m : Nat) (e : Int) (a : Accuracy) :
    (roundWithAccuracy spec s m e a).isNaN = false := by
  unfold roundWithAccuracy
  dsimp only
  split <;> rfl

end Bytebeat.Double
