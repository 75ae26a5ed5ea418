import Bytebeat.Proofs.DecimalText
import Bytebeat.Proofs.Doubles

/-!
# Decimals and doubles

Each finite double is the value of a decimal, its exact one, and reading that
decimal gives the double back (`Decimal.toFloat_exactly`). A shorter decimal is
taken only if it is read back too; so the text of a double is read as the double
(`Decimal.readFloat?_text`).
-/

namespace Bytebeat.Decimal

open Double (Canonical Parts minExponent)
open Float.Model (UnpackedFloat)

/-! ## Powers of ten -/

/-- Whether an unpacked double is a power of ten. -/
def isPowerOfTen (k : Nat) : UnpackedFloat → Bool
  | .finite .positive m e _ => m * 2 ^ e.toNat == 10 ^ k * 2 ^ (-e).toNat
  | _ => false

theorem isPowerOfTen_table : ∀ k : Fin Float.exactlyRepresentablePowersOfTen.size,
    isPowerOfTen k Float.exactlyRepresentablePowersOfTen[k.val].toModel.unpack = true := by
  decide +kernel

theorem exists_power_of_ten {k : Nat} (hk : k < Float.exactlyRepresentablePowersOfTen.size) :
    ∃ m e hm, Float.exactlyRepresentablePowersOfTen[k].toModel.unpack = .finite .positive m e hm ∧
      m * 2 ^ e.toNat = 10 ^ k * 2 ^ (-e).toNat := by
  have h := isPowerOfTen_table ⟨k, hk⟩
  unfold isPowerOfTen at h
  split at h
  · rename_i hpower
    exact ⟨_, _, _, hpower, by simpa using h⟩
  · cases h

/-! ## Exact decimals -/

/-- A whole double is the double nearest to itself. -/
theorem unpack_ofScientific_whole {m : Nat} {e : Int} (h : Canonical m e) (hle : e ≤ 971)
    (he : 0 ≤ e) :
    (Float.ofScientific (m * 2 ^ e.toNat) false 0).toModel.unpack = .finite .positive m e h.pos := by
  have hpos : 0 < m * 2 ^ e.toNat := Nat.mul_pos h.pos (Nat.two_pow_pos _)
  have hone : (getElem Float.exactlyRepresentablePowersOfTen 0 (by decide)).toModel.unpack =
      .finite .positive (2 ^ 52) (-52) (by decide) := rfl
  unfold Float.ofScientific
  split
  · rename_i hsmall
    show (Float.Model.pack (UnpackedFloat.mul .binary64 (Nat.toUInt64 _).toFloat.toModel.unpack
      (getElem Float.exactlyRepresentablePowersOfTen 0 (by decide)).toModel.unpack)).unpack = _
    rw [Double.unpack_toFloat_nat hpos hsmall.1, hone,
      h.mul_exact (j := e.toNat + (52 - (m * 2 ^ e.toNat).log2) + 52) _ _ (by ring) (by omega)]
    exact h.unpack_pack hle _
  · show (Float.Model.pack (UnpackedFloat.ofScientific .binary64 (m * 2 ^ e.toNat) 0)).unpack = _
    have hwidth : Float.Model.Format.binary64.mantissaBits = 53 := rfl
    have hproduct : (m * 2 ^ e.toNat) <<< 53 * 10 ^ (0 : Int).toNat = m * 2 ^ (e.toNat + 53) := by
      rw [Nat.shiftLeft_eq, Int.toNat_zero]
      ring
    have hexp : -((53 : Nat) : Int) + 0 + (e.toNat + 53 : Nat) = e := by omega
    have hsafe : ¬(0 : Int) < -((2 : Int) ^ 11 + (m * 2 ^ e.toNat).log2) := by omega
    unfold UnpackedFloat.ofScientific
    simp only [hwidth]
    rw [dif_neg (Nat.ne_of_gt hpos), if_neg (by decide), if_neg hsafe, if_pos (Int.le_refl 0),
      h.mul_exact _ _ hproduct hexp]
    exact h.unpack_pack hle _

theorem unpack_ofScientific_fraction {m k : Nat} {e : Int} (h : Canonical m e) (hk : e = -k)
    (hneg : e < 0) :
    (Float.ofScientific (m * 5 ^ k) true k).toModel.unpack = .finite .positive m e h.pos := by
  have hpos : 0 < m * 5 ^ k := Nat.mul_pos h.pos (Nat.pow_pos (by decide))
  have hmin := h.minExponent_le
  rw [minExponent] at hmin
  unfold Float.ofScientific
  split
  · rename_i hsmall
    show (Float.Model.pack (UnpackedFloat.div .binary64 (Nat.toUInt64 _).toFloat.toModel.unpack
      (getElem Float.exactlyRepresentablePowersOfTen k _).toModel.unpack)).unpack = _
    have hsize : k < Float.exactlyRepresentablePowersOfTen.size := Nat.lt_succ_of_le hsmall.2
    obtain ⟨m₂, e₂, hm₂, hpower, hvalue⟩ := exists_power_of_ten hsize
    have hquotient : m * 5 ^ k * 2 ^ (52 - (m * 5 ^ k).log2) * 2 ^ (k + (-e₂).toNat) =
        m * m₂ * 2 ^ (e₂.toNat + (52 - (m * 5 ^ k).log2)) := by
      have hten : 10 ^ k = 5 ^ k * 2 ^ k := by rw [← Nat.mul_pow]
      calc m * 5 ^ k * 2 ^ (52 - (m * 5 ^ k).log2) * 2 ^ (k + (-e₂).toNat)
          = m * (5 ^ k * 2 ^ k * 2 ^ (-e₂).toNat) * 2 ^ (52 - (m * 5 ^ k).log2) := by ring
        _ = m * (m₂ * 2 ^ e₂.toNat) * 2 ^ (52 - (m * 5 ^ k).log2) := by rw [hvalue, hten]
        _ = m * m₂ * 2 ^ (e₂.toNat + (52 - (m * 5 ^ k).log2)) := by ring
    rw [Double.unpack_toFloat_nat hpos hsmall.1, hpower, h.div_exact _ _ hquotient (by omega)]
    exact h.unpack_pack (by omega) _
  · show (Float.Model.pack (UnpackedFloat.ofScientific .binary64 (m * 5 ^ k)
      (Int.negOfNat k))).unpack = _
    have hquotient : m * 5 ^ k * 2 ^ k = m * 10 ^ k * 2 ^ 0 := by
      have hten : 10 ^ k = 5 ^ k * 2 ^ k := by rw [← Nat.mul_pow]
      rw [hten]
      ring
    have hk' : Int.negOfNat k = -k := Int.negOfNat_eq
    have hsafe : ¬-(k : Int) < -((2 : Int) ^ 11 + (m * 5 ^ k).log2) := by omega
    have hsmall : ¬-(k : Int) > (2 : Int) ^ 11 := by omega
    rw [hk']
    unfold UnpackedFloat.ofScientific
    rw [dif_neg (Nat.ne_of_gt hpos), if_neg hsmall, if_neg hsafe, if_neg (by omega)]
    simp only [Int.neg_neg, Int.toNat_natCast]
    rw [h.div_exact _ _ hquotient (by omega)]
    exact h.unpack_pack (by omega) _

/-- **The exact decimal of a double is read back as the double.** -/
theorem toFloat_exactly {p : Parts} (h : p.Fits) (hne : p.mantissa ≠ 0) :
    (exactly p).toFloat = ({ p with negative := false } : Parts).toFloat := by
  obtain ⟨hcanon, hle⟩ := h.resolve_left fun hzero => hne hzero.1
  have hfits : ({ p with negative := false } : Parts).Fits := .inr ⟨hcanon, hle⟩
  apply Double.eq_of_unpack_eq
  rw [Parts.unpack_toFloat hfits,
    Parts.unpacked_of_pos (p := { p with negative := false }) hcanon.pos rfl rfl]
  unfold exactly
  split
  · rename_i he
    rw [Nat.shiftLeft_eq]
    exact unpack_ofScientific_whole hcanon hle he
  · rename_i he
    have hk : p.exponent = -((-p.exponent).toNat : Int) := by omega
    have habs : p.exponent.natAbs = (-p.exponent).toNat := by omega
    have hneg : p.exponent < 0 := by omega
    show (Float.ofScientific (p.mantissa * 5 ^ (-p.exponent).toNat) (decide (p.exponent < 0))
      p.exponent.natAbs).toModel.unpack = _
    rw [decide_eq_true hneg, habs]
    exact unpack_ofScientific_fraction hcanon hk hneg

theorem toFloatBounded_eq {d : Decimal} (hne : d.digits ≠ 0) (hle : d.exponent ≤ 400)
    (hge : -400 ≤ d.exponent + (d.digits.log2 / 3 : Nat)) : d.toFloatBounded = d.toFloat := by
  rw [toFloatBounded, if_neg hne, if_neg (Int.not_lt.2 hle), if_neg (Int.not_lt.2 hge)]

theorem toFloatBounded_exactly {p : Parts} (h : p.Fits) (hne : p.mantissa ≠ 0) :
    (exactly p).toFloatBounded = (exactly p).toFloat := by
  obtain ⟨hcanon, hle⟩ := h.resolve_left fun hzero => hne hzero.1
  have hmin := hcanon.minExponent_le
  rw [minExponent] at hmin
  unfold exactly
  split
  · have hpos : 0 < p.mantissa <<< p.exponent.toNat := by
      rw [Nat.shiftLeft_eq]
      exact Nat.mul_pos hcanon.pos (Nat.two_pow_pos _)
    exact toFloatBounded_eq (Nat.ne_of_gt hpos) (show (0 : Int) ≤ 400 by decide)
      (by simp only; omega)
  · have hpos : 0 < p.mantissa * 5 ^ (-p.exponent).toNat :=
      Nat.mul_pos hcanon.pos (Nat.pow_pos (by decide))
    have hlog : 2 * (-p.exponent).toNat ≤ (p.mantissa * 5 ^ (-p.exponent).toNat).log2 := by
      rw [Nat.le_log2 (Nat.ne_of_gt hpos)]
      calc 2 ^ (2 * (-p.exponent).toNat) = 4 ^ (-p.exponent).toNat := by rw [Nat.pow_mul]
        _ ≤ 5 ^ (-p.exponent).toNat := Nat.pow_le_pow_left (by decide) _
        _ ≤ _ := Nat.le_mul_of_pos_left _ hcanon.pos
    exact toFloatBounded_eq (Nat.ne_of_gt hpos) (by simp only; omega)
      (by simp only [Nat.pow_eq]; omega)

/-! ## Reading -/

theorem isNaN_scientific (n : Nat) (e : Int) :
    (UnpackedFloat.ofScientific .binary64 n e).isNaN = false := by
  unfold UnpackedFloat.ofScientific
  split
  · rfl
  · split
    · rfl
    · split
      · rfl
      · split
        · exact Double.isNaN_roundWithAccuracy ..
        · exact Double.isNaN_roundWithAccuracy ..

theorem isNaN_ofScientific (n k : Nat) (s : Bool) : (Float.ofScientific n s k).isNaN = false := by
  unfold Float.ofScientific
  split
  · rename_i hsmall
    have hsize : k < Float.exactlyRepresentablePowersOfTen.size := Nat.lt_succ_of_le hsmall.2
    obtain ⟨m₂, e₂, hm₂, hpower, -⟩ := exists_power_of_ten hsize
    have hnat := Double.unpack_toFloat_nat_cases hsmall.1
    cases s with
    | true =>
      show (Float.Model.pack (UnpackedFloat.div .binary64 n.toUInt64.toFloat.toModel.unpack
        (getElem Float.exactlyRepresentablePowersOfTen k _).toModel.unpack)).unpack.isNaN = false
      apply Double.isNaN_unpack_pack
      rw [hpower]
      rcases hnat with hnat | ⟨m, e, hm, hnat⟩ <;> rw [hnat]
      · rfl
      · exact Double.isNaN_roundWithAccuracy ..
    | false =>
      show (Float.Model.pack (UnpackedFloat.mul .binary64 n.toUInt64.toFloat.toModel.unpack
        (getElem Float.exactlyRepresentablePowersOfTen k _).toModel.unpack)).unpack.isNaN = false
      apply Double.isNaN_unpack_pack
      rw [hpower]
      rcases hnat with hnat | ⟨m, e, hm, hnat⟩ <;> rw [hnat]
      · rfl
      · exact Double.isNaN_roundWithAccuracy ..
  · exact Double.isNaN_unpack_pack (isNaN_scientific n _)

theorem isNaN_toFloatBounded (d : Decimal) : d.toFloatBounded.isNaN = false := by
  unfold toFloatBounded
  dsimp only
  split
  · decide +kernel
  · split
    · decide +kernel
    · split
      · decide +kernel
      · exact isNaN_ofScientific ..

theorem good_of_neighbour? {good : Decimal → Bool} {num den : Nat} {exponent : Int} {d : Decimal}
    (h : neighbour? good num den exponent = some d) : good d = true := by
  unfold neighbour? at h
  extract_lets floor below above at h
  split at h
  · rename_i hbelow habove
    split at h
    · exact Option.some.inj h ▸ hbelow
    · exact Option.some.inj h ▸ habove
  · rename_i hbelow _
    exact Option.some.inj h ▸ hbelow
  · rename_i _ habove
    exact Option.some.inj h ▸ habove
  · cases h

/-- The shortest decimal of a double is read back as its magnitude. -/
theorem readMagnitude?_shortest {p : Parts} (h : p.Fits) :
    readMagnitude? (shortest p).layout =
      some ({ p with negative := false } : Parts).toFloat := by
  by_cases hzero : p.mantissa = 0
  · have hread : readMagnitude? (layout ⟨0, 0⟩) = some (Float.ofBits 0) := by decide +kernel
    rw [shortest, if_pos hzero, hread, Parts.toFloat, if_pos hzero]
    rfl
  · have hexact : readMagnitude? (exactly p).layout =
        some ({ p with negative := false } : Parts).toFloat := by
      have hexponent : (exactly p).exponent ≤ 0 := by
        unfold exactly
        split
        · exact Int.le_refl 0
        · simp only
          omega
      rw [readMagnitude?_layout hexponent, toFloatBounded_exactly h hzero, toFloat_exactly h hzero]
    rw [shortest, if_neg hzero]
    dsimp only
    -- What the search finds has been read back; if it finds nothing, the exact decimal is taken.
    cases hfound : (List.range 17).findSome? fun n => neighbour?
        (readsAs ({ p with negative := false } : Parts).toFloat) (fractionOf p).1 (fractionOf p).2
        (scale (fractionOf p).1 (fractionOf p).2 - (n + 1 : Nat)) with
    | none => exact hexact
    | some d =>
      obtain ⟨n, -, hn⟩ := List.exists_of_findSome?_eq_some hfound
      simpa [readsAs] using good_of_neighbour? hn

/-- **The text of a finite double is read back as the double**, its sign included. -/
theorem readFloat?_text {x : Float} {p : Parts} (h : Parts.ofFloat? x = some p) :
    readFloat? (text x).toList = some x := by
  have hfits := (Parts.unpack_of_ofFloat? h).2
  have hread := readMagnitude?_shortest hfits
  obtain ⟨c, cs, hlayout, hc, -⟩ := layout_spec (shortest p)
  rw [hlayout] at hread
  rw [text, textBy, h]
  simp only [String.toList_ofList, hlayout]
  have hx := Parts.toFloat_of_ofFloat? h
  by_cases hneg : p.negative
  · rw [if_pos hneg, List.singleton_append]
    have hp : ({ p with negative := !false } : Parts) = p := by rw [Bool.not_false, ← hneg]
    show (readMagnitude? (c :: cs)).map Float.neg = some x
    rw [hread, Option.map_some, ← hx]
    have hflip := Parts.neg_toFloat (p := { p with negative := false }) hfits
    exact congrArg some (hflip.trans (congrArg Parts.toFloat hp))
  · rw [if_neg hneg, List.nil_append, readFloat?_eq (.inl hc), hread, ← hx]
    have hp : ({ p with negative := false } : Parts) = p := by
      rw [← Bool.eq_false_of_not_eq_true hneg]
    rw [hp]

end Bytebeat.Decimal
