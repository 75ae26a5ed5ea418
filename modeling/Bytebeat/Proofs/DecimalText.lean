import Bytebeat.Decimal.Shortest
import Mathlib.Data.List.TakeWhile

/-!
# Decimal text

How decimals are written and read, digit by digit. The text of a decimal starts
with a digit and holds nothing but digits and at most one point
(`Decimal.layout_spec`); if it shows the exponent, the decimal is read as it was
written (`Decimal.read?_layout`).
-/

namespace Bytebeat.Decimal

/-! ## Numbers without a sign -/

theorem toNat_of_isAlpha {c : Char} (h : c.isAlpha = true) :
    65 ≤ c.toNat ∧ c.toNat ≤ 90 ∨ 97 ≤ c.toNat ∧ c.toNat ≤ 122 := by
  have hcase : c.isUpper = true ∨ c.isLower = true := Bool.or_eq_true_iff.1 h
  rcases hcase with hupper | hlower
  · have hbounds : 'A'.val ≤ c.val ∧ c.val ≤ 'Z'.val := of_decide_eq_true hupper
    exact .inl hbounds
  · have hbounds := Bool.and_eq_true_iff.1 hlower
    exact .inr ⟨of_decide_eq_true hbounds.1, of_decide_eq_true hbounds.2⟩

theorem isAlpha_of_isDigit {c : Char} (h : c.isDigit = true) : c.isAlpha = false := by
  rw [Char.isDigit_iff_toNat] at h
  rw [← Bool.not_eq_true]
  intro halpha
  have hbounds := toNat_of_isAlpha halpha
  have hnine : '9'.toNat = 57 := rfl
  omega

theorem toLower_eq_self {c : Char} (h : c.isAlpha = false) : c.toLower = c := by
  have hupper : c.isUpper = false := (Bool.or_eq_false_iff.1 h).1
  exact dif_neg (of_decide_eq_false hupper)

/-- A text that starts with a digit or a point is no name. -/
theorem readMagnitude?_eq {c : Char} (h : c.isDigit = true ∨ c = '.') (cs : List Char) :
    readMagnitude? (c :: cs) = (read? (c :: cs)).map toFloatBounded := by
  have halpha : c.isAlpha = false := by
    rcases h with h | rfl
    · exact isAlpha_of_isDigit h
    · rfl
  have hname (s : String) (hs : s.toList.head?.any Char.isAlpha = true) :
      (String.ofList ((c :: cs).map Char.toLower) == s) = false := by
    rw [beq_eq_false_iff_ne]
    rintro rfl
    rw [String.toList_ofList, List.map_cons, List.head?_cons, Option.any_some,
      toLower_eq_self halpha, halpha] at hs
    cases hs
  rw [readMagnitude?, hname "inf" (by decide), hname "infinity" (by decide), hname "nan" (by decide)]
  rfl

theorem readFloat?_eq {c : Char} (h : c.isDigit = true ∨ c = '.') (cs : List Char) :
    readFloat? (c :: cs) = readMagnitude? (c :: cs) := by
  unfold readFloat?
  split
  · rename_i heq
    obtain ⟨rfl, -⟩ := List.cons.inj heq
    exact absurd h (by decide)
  · rename_i heq
    obtain ⟨rfl, -⟩ := List.cons.inj heq
    exact absurd h (by decide)
  · rfl

/-! ## Layout -/

theorem isDigit_of_mem_digits {n : Nat} : ∀ c ∈ Nat.toDigits 10 n, c.isDigit = true := fun _ hc =>
  Nat.isDigit_of_mem_toDigits (by decide) (by decide) hc

theorem isDigit_of_mem_padded {n places : Nat} {c : Char}
    (h : c ∈ List.replicate places '0' ++ Nat.toDigits 10 n) : c.isDigit = true := by
  rcases List.mem_append.1 h with h | h
  · rw [List.eq_of_mem_replicate h]
    rfl
  · exact isDigit_of_mem_digits c h

theorem ofDigits_padded (n places : Nat) :
    ofDigits (List.replicate places '0' ++ Nat.toDigits 10 n) = n := by
  show Nat.ofDigitChars 10 (List.replicate places '0' ++ Nat.toDigits 10 n) 0 = n
  rw [Nat.ofDigitChars_append, Nat.ofDigitChars_replicate_zero, Nat.mul_zero,
    Nat.ofDigitChars_toDigits (by decide) (by decide)]

/-- The digits on either side of the point of a decimal with `places` digits after it. -/
theorem layout_fraction {n places : Nat} {e : Int} (he : e < 0) (hplaces : e.natAbs = places) :
    ∃ whole fraction, layout ⟨n, e⟩ = whole ++ '.' :: fraction ∧ whole ≠ [] ∧
      fraction.length = places ∧
      whole ++ fraction = List.replicate (places + 1 - (Nat.toDigits 10 n).length) '0' ++
        Nat.toDigits 10 n := by
  obtain ⟨padded, hpadded⟩ : ∃ padded, padded =
    List.replicate (places + 1 - (Nat.toDigits 10 n).length) '0' ++ Nat.toDigits 10 n := ⟨_, rfl⟩
  have hlen : places + 1 ≤ padded.length := by
    rw [hpadded, List.length_append, List.length_replicate]
    omega
  refine ⟨padded.take (padded.length - places), padded.drop (padded.length - places), ?_, ?_, ?_, ?_⟩
  · unfold layout
    simp only [hplaces]
    rw [if_neg (by omega), if_neg (by omega), hpadded]
  · intro hnil
    have := congrArg List.length hnil
    rw [List.length_take, List.length_nil] at this
    omega
  · rw [List.length_drop]
    omega
  · rw [List.take_append_drop, hpadded]

theorem layout_whole (n : Nat) {e : Int} (he : 0 ≤ e) :
    ∃ zeros, layout ⟨n, e⟩ = Nat.toDigits 10 n ++ List.replicate zeros '0' ∧
      (e = 0 → zeros = 0) := by
  unfold layout
  by_cases hn : n = 0
  · exact ⟨0, by simp [hn, he], fun _ => rfl⟩
  · exact ⟨e.toNat, by simp [hn, he], fun h => by rw [h]; rfl⟩

theorem layout_spec (d : Decimal) :
    ∃ c cs, d.layout = c :: cs ∧ c.isDigit = true ∧ ∀ c ∈ cs, c.isDigit = true ∨ c = '.' := by
  obtain ⟨n, e⟩ := d
  by_cases he : 0 ≤ e
  · obtain ⟨zeros, hlayout, -⟩ := layout_whole n he
    obtain ⟨c, cs, hdigits⟩ := List.exists_cons_of_ne_nil (Nat.toDigits_ne_nil (n := n) (b := 10))
    have hall := isDigit_of_mem_digits (n := n)
    rw [hdigits] at hlayout hall
    refine ⟨c, cs ++ List.replicate zeros '0', hlayout, hall c List.mem_cons_self, fun d hd => .inl ?_⟩
    rcases List.mem_append.1 hd with hd | hd
    · exact hall d (List.mem_cons_of_mem _ hd)
    · rw [List.eq_of_mem_replicate hd]
      rfl
  · obtain ⟨whole, fraction, hlayout, hne, -, hpadded⟩ :=
      layout_fraction (n := n) (by omega : e < 0) rfl
    have hall : ∀ c ∈ whole ++ fraction, c.isDigit = true := fun c hc =>
      isDigit_of_mem_padded (hpadded ▸ hc)
    obtain ⟨c, cs, rfl⟩ := List.exists_cons_of_ne_nil hne
    refine ⟨c, cs ++ '.' :: fraction, hlayout, hall c List.mem_cons_self, fun d hd => ?_⟩
    rcases List.mem_append.1 hd with hd | hd
    · exact .inl (hall d (List.mem_append_left _ (List.mem_cons_of_mem _ hd)))
    · rcases List.mem_cons.1 hd with rfl | hd
      · exact .inr rfl
      · exact .inl (hall d (List.mem_append_right _ hd))

/-- A decimal is read as it was written if its text shows its exponent. -/
theorem read?_layout {d : Decimal} (h : d.exponent ≤ 0) : read? d.layout = some d := by
  obtain ⟨n, e⟩ := d
  by_cases he : 0 ≤ e
  · obtain rfl : e = 0 := Int.le_antisymm h he
    obtain ⟨zeros, hlayout, hzeros⟩ := layout_whole n he
    have hall := isDigit_of_mem_digits (n := n)
    have hvalue : ofDigits (Nat.toDigits 10 n) = n := ofDigits_padded n 0
    have hempty : (Nat.toDigits 10 n).isEmpty = false :=
      List.isEmpty_eq_false_iff.2 Nat.toDigits_ne_nil
    rw [hlayout, hzeros rfl, List.replicate_zero, List.append_nil]
    simp only [read?, List.takeWhile_eq_self_iff.2 hall, List.dropWhile_eq_nil_iff.2 hall, hempty,
      Bool.false_and, Bool.false_eq_true, if_false, readExponent?, Option.map_some,
      List.append_nil, hvalue]
    rfl
  · obtain ⟨whole, fraction, hlayout, hne, hlen, hpadded⟩ :=
      layout_fraction (n := n) (by omega : e < 0) rfl
    have hall : ∀ c ∈ whole ++ fraction, c.isDigit = true := fun c hc =>
      isDigit_of_mem_padded (hpadded ▸ hc)
    have hwhole : ∀ c ∈ whole, c.isDigit = true := fun c hc => hall c (List.mem_append_left _ hc)
    have hfraction : ∀ c ∈ fraction, c.isDigit = true := fun c hc =>
      hall c (List.mem_append_right _ hc)
    have hempty : whole.isEmpty = false := List.isEmpty_eq_false_iff.2 hne
    have htake : (whole ++ '.' :: fraction).takeWhile Char.isDigit = whole := by
      rw [List.takeWhile_append_of_pos hwhole, List.takeWhile_cons_of_neg (by decide),
        List.append_nil]
    have hdrop : (whole ++ '.' :: fraction).dropWhile Char.isDigit = '.' :: fraction := by
      rw [List.dropWhile_append_of_pos hwhole, List.dropWhile_cons_of_neg (by decide)]
    rw [hlayout]
    simp only [read?, htake, hdrop, List.takeWhile_eq_self_iff.2 hfraction,
      List.dropWhile_eq_nil_iff.2 hfraction, hempty, Bool.false_and, Bool.false_eq_true, if_false,
      readExponent?, Option.map_some, hpadded, ofDigits_padded, hlen]
    have hexponent : (0 : Int) - (e.natAbs : Int) = e := by omega
    rw [hexponent]

theorem readMagnitude?_layout {d : Decimal} (h : d.exponent ≤ 0) :
    readMagnitude? d.layout = some d.toFloatBounded := by
  have hread := read?_layout h
  obtain ⟨c, cs, hlayout, hc, -⟩ := layout_spec d
  rw [hlayout] at hread ⊢
  rw [readMagnitude?_eq (.inl hc), hread, Option.map_some]

end Bytebeat.Decimal
