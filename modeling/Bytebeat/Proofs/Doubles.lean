import Bytebeat.Proofs.Rounding

/-!
# The parts of doubles

Every finite double is the double of its parts (`Parts.toFloat_of_ofFloat?`),
and every double that is written from parts has them (`Parts.unpack_toFloat`).
Packing makes no not-a-number of a number (`isNaN_unpack_pack`).
-/

namespace Bytebeat.Double

open Float.Model (Format UnpackedFloat)
open Float.Model.UnpackedFloat (Sign packedInfinity packedNaN packedZero unpackExponent
  unpackMantissa unpackSign unpackExponent_packComponents unpackMantissa_packComponents)

namespace Parts

def sign (p : Parts) : Sign := if p.negative then .negative else .positive

def unpacked (p : Parts) : UnpackedFloat :=
  if h : p.mantissa = 0 then .zero p.sign
  else .finite p.sign p.mantissa p.exponent (Nat.pos_of_ne_zero h)

theorem unpacked_of_zero {p : Parts} (h : p.mantissa = 0) : p.unpacked = .zero p.sign := dif_pos h

theorem unpacked_of_pos {p : Parts} {m : Nat} {e : Int} (hpos : 0 < m) (hm : p.mantissa = m)
    (he : p.exponent = e) : p.unpacked = .finite p.sign m e hpos := by
  subst hm he
  exact dif_neg (Nat.ne_of_gt hpos)

def Fits (p : Parts) : Prop :=
  p.mantissa = 0 ∧ p.exponent = minExponent ∨ Canonical p.mantissa p.exponent ∧ p.exponent ≤ 971

/-- The parts in the fields of a double that is finite. -/
def ofFields (negative : Bool) (biased fraction : Nat) : Parts :=
  if biased = 0 then ⟨negative, fraction, minExponent⟩
  else ⟨negative, leadingBit + fraction, minExponent + (biased - 1 : Nat)⟩

end Parts

/-- The fields of a finite double, joined. -/
structure Fields (bits : Nat) (negative : Bool) (biased fraction : Nat) : Prop where
  join : bits = (if negative then 2 ^ 63 else 0) + biased * 2 ^ 52 + fraction
  biased_lt : biased < 2047
  fraction_lt : fraction < 2 ^ 52

namespace Fields

variable {bits biased fraction : Nat} {negative : Bool}

theorem lt (h : Fields bits negative biased fraction) : bits < 2 ^ 64 := by
  obtain ⟨rfl, hb, hf⟩ := h
  split <;> omega

theorem fraction_eq (h : Fields bits negative biased fraction) : bits % 2 ^ 52 = fraction := by
  obtain ⟨rfl, hb, hf⟩ := h
  split <;> omega

theorem biased_eq (h : Fields bits negative biased fraction) : bits / 2 ^ 52 % 2048 = biased := by
  obtain ⟨rfl, hb, hf⟩ := h
  split <;> omega

theorem negative_eq (h : Fields bits negative biased fraction) :
    bits / 2 ^ 63 % 2 = if negative then 1 else 0 := by
  obtain ⟨rfl, hb, hf⟩ := h
  split <;> omega

theorem fits (h : Fields bits negative biased fraction) :
    (Parts.ofFields negative biased fraction).Fits := by
  obtain ⟨-, hb, hf⟩ := h
  unfold Parts.ofFields
  split
  · by_cases hzero : fraction = 0
    · exact .inl ⟨hzero, rfl⟩
    · refine .inr ⟨⟨Nat.pos_of_ne_zero hzero, ?_, Int.le_refl _, .inr rfl⟩, ?_⟩
      · exact Nat.lt_trans hf (by decide)
      · show minExponent ≤ 971
        decide
  · have hlead : leadingBit = 2 ^ 52 := by decide
    refine .inr ⟨⟨?_, ?_, ?_, .inl ?_⟩, ?_⟩ <;> simp only [hlead, minExponent] <;> omega

theorem unpackMantissa_eq (h : Fields bits negative biased fraction) {b : BitVec 64}
    (hb : b.toNat = bits) : @unpackMantissa .binary64 b = BitVec.ofNat 52 fraction := by
  apply BitVec.eq_of_toNat_eq
  rw [Float.Model.UnpackedFloat.unpackMantissa_def, BitVec.extractLsb'_toNat, BitVec.toNat_ofNat,
    Nat.shiftRight_zero, hb, h.fraction_eq, Nat.mod_eq_of_lt h.fraction_lt]

theorem unpackExponent_eq (h : Fields bits negative biased fraction) {b : BitVec 64}
    (hb : b.toNat = bits) : @unpackExponent .binary64 b = BitVec.ofNat 11 biased := by
  have hbiased := h.biased_lt
  apply BitVec.eq_of_toNat_eq
  rw [Float.Model.UnpackedFloat.unpackExponent_def, BitVec.extractLsb'_toNat, BitVec.toNat_ofNat,
    Nat.shiftRight_eq_div_pow, hb]
  exact h.biased_eq.trans (Nat.mod_eq_of_lt (by omega : biased < 2048)).symm

theorem unpackSign_eq (h : Fields bits negative biased fraction) {b : BitVec 64}
    (hb : b.toNat = bits) :
    Sign.ofBitVec (@unpackSign .binary64 b) =
      if negative then .negative else .positive := by
  have hbit : @unpackSign .binary64 b = BitVec.ofNat 1 (if negative then 1 else 0) := by
    apply BitVec.eq_of_toNat_eq
    rw [Float.Model.UnpackedFloat.unpackSign_def, BitVec.extractLsb'_toNat, BitVec.toNat_ofNat,
      Nat.shiftRight_eq_div_pow, hb]
    refine h.negative_eq.trans ?_
    cases negative <;> rfl
  rw [hbit]
  cases negative <;> rfl

theorem exponent_ne_ones (h : Fields bits negative biased fraction) :
    BitVec.ofNat 11 biased ≠ -1#11 := by
  have hbiased := h.biased_lt
  intro heq
  have hnat : biased % 2 ^ 11 = 2047 := congrArg BitVec.toNat heq
  omega

theorem unpack_eq (h : Fields bits negative biased fraction) {b : BitVec 64}
    (hb : b.toNat = bits) :
    UnpackedFloat.unpack .binary64 b = (Parts.ofFields negative biased fraction).unpacked := by
  have hbiased := h.biased_lt
  have hfraction := h.fraction_lt
  have hbiasedNat : (BitVec.ofNat 11 biased).toNat = biased := by
    rw [BitVec.toNat_ofNat, Nat.mod_eq_of_lt (by omega)]
  have hfractionNat : (BitVec.ofNat 52 fraction).toNat = fraction := by
    rw [BitVec.toNat_ofNat, Nat.mod_eq_of_lt hfraction]
  unfold UnpackedFloat.unpack
  simp only [h.unpackMantissa_eq hb, h.unpackExponent_eq hb, h.unpackSign_eq hb,
    h.exponent_ne_ones, if_false]
  -- Without an exponent there is no leading bit: the double is zero or subnormal.
  by_cases hzero : biased = 0
  · have hparts : Parts.ofFields negative biased fraction = ⟨negative, fraction, minExponent⟩ :=
      if_pos hzero
    rw [hparts, if_pos (by rw [hzero])]
    by_cases hnone : fraction = 0
    · rw [dif_pos (by rw [hnone]), Parts.unpacked_of_zero hnone]
      rfl
    · rw [dif_neg fun heq => hnone (by rw [← hfractionNat, heq]; rfl)]
      refine (Parts.unpacked_of_pos (p := ⟨negative, fraction, minExponent⟩) _ hfractionNat.symm
        ?_).symm
      rw [hbiasedNat, hzero]
      rfl
  · have hparts : Parts.ofFields negative biased fraction =
        ⟨negative, leadingBit + fraction, minExponent + (biased - 1 : Nat)⟩ := if_neg hzero
    have hlead : (1#1 ++ BitVec.ofNat 52 fraction).toNat = leadingBit + fraction := by
      rw [BitVec.toNat_append, ← Nat.shiftLeft_add_eq_or_of_lt (BitVec.isLt _), hfractionNat]
      rfl
    rw [hparts, if_neg fun heq => hzero (by rw [← hbiasedNat, heq]; rfl)]
    refine (Parts.unpacked_of_pos (p := ⟨negative, leadingBit + fraction, _⟩) _ hlead.symm ?_).symm
    rw [hbiasedNat]
    show minExponent + ((biased - 1 : Nat) : Int) = (biased : Int) - (1023 + 52)
    rw [minExponent]
    omega

/-- The fields of a finite double are packed again as they were. -/
theorem pack_unpack (h : Fields bits negative biased fraction) {b : BitVec 64}
    (hb : b.toNat = bits) : (UnpackedFloat.unpack .binary64 b).pack .binary64 = b := by
  rw [Float.Model.UnpackedFloat.pack_unpack, if_neg]
  rw [Float.Model.UnpackedFloat.isNaNBits, decide_eq_true_eq, not_and, h.unpackExponent_eq hb]
  exact fun hones => absurd hones h.exponent_ne_ones

end Fields

/-! ## Reading parts off and writing them back -/

theorem eq_of_unpack_eq {x y : Float} (h : x.toModel.unpack = y.toModel.unpack) : x = y := by
  rw [← Float.toBits_inj, ← UInt64.toBitVec_inj]
  exact (Float.Model.UnpackedFloat.unpack_inj_of_valid x.toModel.valid y.toModel.valid).1 h

namespace Parts

theorem unpack_of_ofFloat? {x : Float} {p : Parts} (h : ofFloat? x = some p) :
    x.toModel.unpack = p.unpacked ∧ p.Fits := by
  have hbits := x.toBits.toNat_lt
  unfold ofFloat? at h
  extract_lets bits negative biased fraction at h
  have hlead : leadingBit = 2 ^ 52 := by decide
  split at h
  · cases h
  · rename_i hinf
    have hfields : Fields bits negative biased fraction := by
      have hneg : negative = decide (bits / 2 ^ 63 = 1) := by
        simp only [negative, Nat.shiftRight_eq_div_pow]
        rfl
      simp only [beq_iff_eq] at hinf
      refine ⟨?_, ?_, ?_⟩
      · rw [hneg]
        simp only [decide_eq_true_eq, biased, fraction, hlead]
        split <;> omega
      · simp only [biased, hlead] at hinf ⊢
        omega
      · simp only [fraction, hlead]
        omega
    have hp : p = ofFields negative biased fraction := by
      unfold ofFields
      split at h
      · rename_i hzero
        rw [if_pos (by simpa using hzero)]
        exact (Option.some.inj h).symm
      · rename_i hzero
        rw [if_neg (by simpa using hzero)]
        exact (Option.some.inj h).symm
    rw [hp]
    exact ⟨hfields.unpack_eq rfl, hfields.fits⟩

theorem isFinite_of_ofFloat? {x : Float} {p : Parts} (h : ofFloat? x = some p) :
    x.isFinite = true := by
  show x.toModel.unpack.isFinite = true
  rw [(unpack_of_ofFloat? h).1, unpacked]
  split <;> rfl

theorem exists_ofFloat? {x : Float} (h : x.isFinite = true) : ∃ p, ofFloat? x = some p := by
  cases hp : ofFloat? x with
  | some p => exact ⟨p, rfl⟩
  | none =>
    exfalso
    have hlead : leadingBit = 2 ^ 52 := by decide
    have hbiased : x.toBits.toNat / leadingBit % 2048 = 2047 := by
      unfold ofFloat? at hp
      extract_lets bits negative biased fraction at hp
      split at hp
      · rename_i hones
        exact beq_iff_eq.1 hones
      · split at hp <;> cases hp
    have hexponent : @unpackExponent .binary64 x.toModel.toBits.toBitVec = -1#11 := by
      apply BitVec.eq_of_toNat_eq
      rw [Float.Model.UnpackedFloat.unpackExponent_def, BitVec.extractLsb'_toNat,
        Nat.shiftRight_eq_div_pow]
      rw [hlead] at hbiased
      exact hbiased
    have hunpack : x.toModel.unpack.isFinite = true := h
    unfold Float.Model.unpack UnpackedFloat.unpack at hunpack
    simp only [hexponent, if_true] at hunpack
    by_cases hzero : @unpackMantissa .binary64 x.toModel.toBits.toBitVec = 0#52
    · rw [if_pos hzero] at hunpack
      cases hunpack
    · rw [if_neg hzero] at hunpack
      cases hunpack

theorem ofFloat?_of_isInf {x : Float} (h : x.isInf = true) : x.isNaN = false ∧ ofFloat? x = none := by
  have hinf : x.toModel.unpack.isInf = true := h
  constructor
  · show x.toModel.unpack.isNaN = false
    cases hu : x.toModel.unpack with
    | notANumber => rw [hu] at hinf; cases hinf
    | infinity | zero | finite => rfl
  · cases hp : ofFloat? x with
    | none => rfl
    | some p =>
      have hfinite : x.toModel.unpack.isFinite = true := isFinite_of_ofFloat? hp
      cases hu : x.toModel.unpack with
      | infinity => rw [hu] at hfinite; cases hfinite
      | notANumber | zero | finite => rw [hu] at hinf; cases hinf

theorem normalize_eq {p : Parts} (h : Canonical p.mantissa p.exponent) : p.normalize = p := by
  have hshift : min (52 - p.mantissa.log2) (p.exponent - minExponent).toNat = 0 := by
    rcases h.normal with hnormal | hexp
    · have := (Nat.le_log2 (Nat.ne_of_gt h.pos)).2 hnormal
      omega
    · omega
  simp only [normalize, hshift, Nat.shiftLeft_zero, Int.natCast_zero, Int.sub_zero]

theorem exists_fields {p : Parts} (h : p.Fits) :
    ∃ bits biased fraction, Fields bits p.negative biased fraction ∧
      p = ofFields p.negative biased fraction ∧ p.toFloat = Float.ofBits (UInt64.ofNat bits) := by
  have hlead : leadingBit = 2 ^ 52 := by decide
  have hsign : (if p.negative then 1 <<< 63 else 0 : Nat) = if p.negative then 2 ^ 63 else 0 := by
    split <;> rfl
  rcases h with ⟨hzero, hexp⟩ | ⟨hcanon, hle⟩
  · refine ⟨_, 0, 0, ⟨rfl, by decide, by decide⟩, ?_, ?_⟩
    · rw [ofFields, if_pos rfl, ← hzero, ← hexp]
    · rw [toFloat, if_pos hzero, hsign]
      rfl
  · have hnormalize := normalize_eq hcanon
    obtain ⟨hpos, hlt, hmin, hnormal⟩ := hcanon
    refine ⟨_, if p.mantissa < leadingBit then 0 else (p.exponent - minExponent).toNat + 1,
      p.mantissa % leadingBit, ⟨rfl, ?_, ?_⟩, ?_, ?_⟩
    · simp only [minExponent] at hmin ⊢
      split <;> omega
    · rw [hlead]
      exact Nat.mod_lt _ (Nat.two_pow_pos 52)
    · rw [hlead]
      obtain ⟨negative, m, e⟩ := p
      simp only at hlt hmin hnormal ⊢
      by_cases hlow : m < 2 ^ 52
      · have hexp : e = minExponent := hnormal.resolve_left (Nat.not_le.2 hlow)
        rw [ofFields, if_pos (if_pos hlow), Nat.mod_eq_of_lt hlow, hexp]
      · rw [ofFields, if_neg (by rw [if_neg hlow]; exact Nat.succ_ne_zero _), if_neg hlow, hlead,
          Nat.add_sub_cancel]
        congr 1 <;> omega
    · rw [toFloat, if_neg (Nat.ne_of_gt hpos), hnormalize, hsign, hlead]

/-- A double written from parts has them. -/
theorem unpack_toFloat {p : Parts} (h : p.Fits) : p.toFloat.toModel.unpack = p.unpacked := by
  obtain ⟨bits, biased, fraction, hfields, hp, hfloat⟩ := exists_fields h
  have hbits : (UInt64.ofNat bits).toBitVec.toNat = bits := Nat.mod_eq_of_lt hfields.lt
  rw [hfloat]
  show UnpackedFloat.unpack .binary64
    ((UnpackedFloat.unpack .binary64 (UInt64.ofNat bits).toBitVec).pack .binary64) = _
  rw [hfields.pack_unpack hbits, hfields.unpack_eq hbits, ← hp]

theorem unpack_pack {p : Parts} (h : p.Fits) :
    (Float.Model.pack p.unpacked).unpack = p.unpacked := by
  rw [← unpack_toFloat h]
  exact congrArg (UnpackedFloat.unpack .binary64)
    (Float.Model.UnpackedFloat.pack_unpack_of_valid p.toFloat.toModel.valid)

theorem toFloat_of_ofFloat? {x : Float} {p : Parts} (h : ofFloat? x = some p) : p.toFloat = x := by
  obtain ⟨hunpack, hfits⟩ := unpack_of_ofFloat? h
  exact eq_of_unpack_eq ((unpack_toFloat hfits).trans hunpack.symm)

theorem neg_toFloat {p : Parts} (h : p.Fits) :
    -p.toFloat = ({ p with negative := !p.negative } : Parts).toFloat := by
  have hfits : ({ p with negative := !p.negative } : Parts).Fits := h
  apply eq_of_unpack_eq
  have hneg : p.unpacked.neg = ({ p with negative := !p.negative } : Parts).unpacked := by
    obtain ⟨negative, m, e⟩ := p
    by_cases hm : m = 0 <;> cases negative <;> simp [unpacked, hm, sign, UnpackedFloat.neg] <;> rfl
  show (Float.Model.pack p.toFloat.toModel.unpack.neg).unpack = _
  rw [unpack_toFloat h, hneg, unpack_pack hfits, unpack_toFloat hfits]

end Parts

theorem Canonical.unpack_pack {m : Nat} {e : Int} (h : Canonical m e) (he : e ≤ 971) (s : Sign) :
    (Float.Model.pack (.finite s m e h.pos)).unpack = .finite s m e h.pos := by
  have hs : Parts.sign ⟨s == .negative, m, e⟩ = s := by cases s <;> rfl
  have hp : Parts.unpacked ⟨s == .negative, m, e⟩ = .finite s m e h.pos := by
    rw [Parts.unpacked_of_pos h.pos rfl rfl, hs]
  rw [← hp]
  exact Parts.unpack_pack (.inr ⟨h, he⟩)

theorem unpack_toFloat_nat {n : Nat} (hn : 0 < n) (hlt : n < 2 ^ 53) :
    n.toUInt64.toFloat.toModel.unpack =
      .finite .positive (n * 2 ^ (52 - n.log2)) (-(52 - n.log2 : Nat))
        (canonical_of_lt hn hlt).pos := by
  have hword : n.toUInt64.toNat = n := Nat.mod_eq_of_lt (Nat.lt_trans hlt (by decide))
  show (Float.Model.pack (Float.Model.UnpackedFloat.ofNat .binary64 n.toUInt64.toNat)).unpack = _
  rw [hword, ofNat_exact hn hlt]
  exact (canonical_of_lt hn hlt).unpack_pack (by omega) _

theorem unpack_toFloat_nat_cases {n : Nat} (hlt : n < 2 ^ 53) :
    n.toUInt64.toFloat.toModel.unpack = .zero .positive ∨
      ∃ m e hm, n.toUInt64.toFloat.toModel.unpack = .finite .positive m e hm := by
  rcases Nat.eq_zero_or_pos n with rfl | hn
  · exact .inl rfl
  · exact .inr ⟨_, _, _, unpack_toFloat_nat hn hlt⟩

/-! ## Not-a-number -/

theorem isFinite_or_isInf {x : Float} (h : x.isNaN = false) : x.isFinite = true ∨ x.isInf = true := by
  show x.toModel.unpack.isFinite = true ∨ x.toModel.unpack.isInf = true
  have hnan : x.toModel.unpack.isNaN = false := h
  cases hu : x.toModel.unpack with
  | notANumber => rw [hu] at hnan; cases hnan
  | infinity => exact .inr rfl
  | zero | finite => exact .inl rfl

theorem isNaN_unpack_pack {u : UnpackedFloat} (h : u.isNaN = false) :
    (Float.Model.pack u).unpack.isNaN = false := by
  rw [← Bool.not_eq_true]
  intro hnan
  have hpacked : u.pack .binary64 = packedNaN .binary64 :=
    (Float.Model.UnpackedFloat.isNaN_unpack_iff_of_valid
      Float.Model.UnpackedFloat.valid_pack).1 hnan
  have hexponent : unpackExponent (u.pack .binary64) = -1#11 := by
    rw [hpacked, packedNaN, unpackExponent_packComponents]
  have hmantissa : unpackMantissa (u.pack .binary64) ≠ 0#52 := by
    rw [hpacked, packedNaN, unpackMantissa_packComponents]
    decide
  cases u with
  | notANumber => cases h
  | infinity s => exact hmantissa unpackMantissa_packComponents
  | zero s =>
    rw [UnpackedFloat.pack, packedZero, unpackExponent_packComponents] at hexponent
    exact absurd hexponent (by decide)
  | finite s m e hm =>
    by_cases hover : 2 ^ 11 ≤ (e + Format.binary64.exponentBias + 52).toNat + 1
    · have hinf : UnpackedFloat.pack .binary64 (.finite s m e hm) = packedInfinity .binary64 s :=
        if_pos hover
      rw [hinf] at hmantissa
      exact hmantissa unpackMantissa_packComponents
    · have hfields : Fields ((e + Format.binary64.exponentBias + 52).toNat * 2 ^ 52) false
          (e + Format.binary64.exponentBias + 52).toNat 0 := ⟨by simp, by omega, by decide⟩
      rw [UnpackedFloat.pack] at hexponent
      split at hexponent
      · rename_i hover'
        exact hover hover'
      · split at hexponent
        · rw [unpackExponent_packComponents] at hexponent
          exact hfields.exponent_ne_ones hexponent
        · rw [unpackExponent_packComponents] at hexponent
          exact absurd hexponent (by decide)

theorem isNaN_neg {x : Float} (h : x.isNaN = false) : (-x).isNaN = false := by
  have hnan : x.toModel.unpack.isNaN = false := h
  refine isNaN_unpack_pack (u := x.toModel.unpack.neg) ?_
  cases hu : x.toModel.unpack with
  | notANumber => rw [hu] at hnan; cases hnan
  | infinity | zero | finite => rfl

end Bytebeat.Double
