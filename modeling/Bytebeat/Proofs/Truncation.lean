import Bytebeat.Proofs.Doubles

/-!
# Integer parts of doubles

What is dropped from a finite double is the part of its mantissa behind the
point (`roundToInt_eq`), and so a bound on a double that is a natural number is
one on its integer part (`toNat_toUInt64_le`).
-/

namespace Bytebeat.Double

open Float.Model (UnpackedFloat)
open Float.Model.UnpackedFloat

theorem bounds_of_unpack {x : Float} {s : Sign} {m : Nat} {e : Int} {hm : 0 < m}
    (h : x.toModel.unpack = .finite s m e hm) : Canonical m e ∧ e ≤ 971 := by
  have hfinite : x.isFinite = true := congrArg UnpackedFloat.isFinite h
  obtain ⟨p, hp⟩ := Parts.exists_ofFloat? hfinite
  obtain ⟨hunpack, hfits⟩ := Parts.unpack_of_ofFloat? hp
  rw [h, Parts.unpacked] at hunpack
  split at hunpack
  · cases hunpack
  · rename_i hne
    cases hunpack
    exact hfits.resolve_left fun hzero => hne hzero.1

theorem canonical_of_unpack {x : Float} {s : Sign} {m : Nat} {e : Int} {hm : 0 < m}
    (h : x.toModel.unpack = .finite s m e hm) : Canonical m e := (bounds_of_unpack h).1

theorem mantissa_shiftRight (em : ExtendedMantissa) (k : Nat) :
    (em >>> k).mantissa = em.mantissa / 2 ^ k := by
  induction k with
  | zero => exact (Nat.div_one _).symm
  | succ k ih =>
    show (em >>> k).mantissa / 2 = _
    rw [ih, Nat.div_div_eq_div_mul, Nat.pow_succ]

theorem roundToInt_eq (s : Sign) (m k : Nat) : roundToInt s m (-k) = s.apply (m / 2 ^ k : Nat) := by
  have hnone : (-(k : Int) - 0).toNat = 0 := by omega
  have hall : (0 - (-(k : Int) - 0)).toNat = k := by omega
  simp only [roundToInt, decreaseExponent, hnone, Nat.shiftLeft_zero, shiftToExponent,
    Int.natCast_zero, hall, ExtendedMantissa.ofMantissaAndAccuracy, mantissa_shiftRight]

theorem toNat_ofNatClamp (n : Nat) : (UInt64.ofNatClamp n).toNat = min n (UInt64.size - 1) := by
  rw [UInt64.ofNatClamp]
  split
  · rename_i hlt
    exact (Nat.min_eq_left (Nat.le_sub_one_of_lt hlt)).symm
  · rename_i hle
    exact (Nat.min_eq_right (Nat.le_trans (Nat.sub_le _ 1) (Nat.not_lt.1 hle))).symm

theorem roundToInt_negative_le (m : Nat) (e : Int) : roundToInt .negative m e ≤ 0 :=
  Int.neg_nonpos_of_nonneg (Int.natCast_nonneg _)

theorem le_of_compare {m n k : Nat} {e : Int} (hm : Canonical m e) (hn : 2 ^ 52 ≤ n * 2 ^ k)
    (h : ((compare e (-k)).then (compare m (n * 2 ^ k))).isLE = true) :
    ∃ j : Nat, e = -j ∧ m ≤ n * 2 ^ j := by
  rw [Ordering.isLE_then_iff_or, Int.compare_eq_lt, Int.compare_eq_eq, Nat.isLE_compare] at h
  rcases h with hlt | ⟨rfl, hle⟩
  · obtain ⟨j, hj⟩ : ∃ j : Nat, e = -(k + 1 + j : Nat) := ⟨(-e - (k + 1)).toNat, by omega⟩
    refine ⟨k + 1 + j, hj, ?_⟩
    calc m ≤ 2 ^ 52 * 2 := Nat.le_of_lt hm.lt
      _ ≤ n * 2 ^ k * 2 := Nat.mul_le_mul_right 2 hn
      _ = n * 2 ^ (k + 1) := by ring
      _ ≤ n * 2 ^ (k + 1 + j) := Nat.mul_le_mul_left n (Nat.pow_le_pow_right (by decide) (by omega))
  · exact ⟨k, rfl, hle⟩

/-- What is at most a natural number has an integer part that is at most this number. -/
theorem toNat_toUInt64_le {x y : Float} {n k : Nat} {hpos : 0 < n * 2 ^ k}
    (hy : y.toModel.unpack = .finite .positive (n * 2 ^ k) (-k) hpos) (hn : 2 ^ 52 ≤ n * 2 ^ k)
    (h : x ≤ y) : x.toUInt64.toNat ≤ n := by
  have hle : (x.toModel.unpack.compare y.toModel.unpack).any (·.isLE) = true :=
    of_decide_eq_true (p := _ ≤ _) h
  have hint : x.toModel.unpack.toInt 0 (UInt64.size - 1) ≤ n := by
    rw [hy] at hle
    cases hx : x.toModel.unpack with
    | notANumber | zero s => exact Int.natCast_nonneg n
    | infinity s =>
      rw [hx] at hle
      cases s with
      | negative => exact Int.natCast_nonneg n
      | positive => cases hle
    | finite s m e hm =>
      rw [hx] at hle
      cases s with
      | negative => exact Int.le_trans (roundToInt_negative_le m e) (Int.natCast_nonneg n)
      | positive =>
        obtain ⟨j, rfl, hmj⟩ := le_of_compare (canonical_of_unpack hx) hn hle
        show roundToInt .positive m (-j) ≤ n
        rw [roundToInt_eq]
        exact Int.ofNat_le.2 (Nat.div_le_of_le_mul (Nat.mul_comm n _ ▸ hmj))
  show (UInt64.ofNatClamp (x.toModel.unpack.toInt 0 (UInt64.size - 1)).toNat).toNat ≤ n
  rw [toNat_ofNatClamp]
  exact Nat.le_trans (Nat.min_le_left _ _) (Int.toNat_le.2 hint)

end Bytebeat.Double
