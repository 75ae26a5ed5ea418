import Bytebeat.Proofs.DecimalText
import Bytebeat.Token.Lexer
import Mathlib.Data.String.Basic

/-!
# Lexemes

Single steps of the lexer: which lexeme starts at a character, and which token
it stands for. The spelling of a token stands for that token and no other
(`Token.ofSpelling?_eq_some_iff`).
-/

namespace Bytebeat

namespace Token

theorem mem_all (t : Token) : t ∈ all := by
  cases t with
  | atom a =>
    cases a with
    | reading r => cases r <;> decide
    | input channel => revert channel; decide
    | _ => decide
  | unary op => cases op <;> decide
  | binary op => cases op <;> decide
  | _ => decide

/-- Only `number` and `invalid` have no spelling; all other spellings are different. -/
theorem ofSpelling?_spelling (t : Token) (h : t.spelling ≠ "") : ofSpelling? t.spelling = some t := by
  have hall : ∀ t ∈ all, t.spelling ≠ "" → ofSpelling? t.spelling = some t := by decide +kernel
  exact hall t (mem_all t) h

theorem spelling_of_ofSpelling? {text : String} {t : Token} (h : ofSpelling? text = some t) :
    t.spelling = text ∧ text ≠ "" := by
  unfold ofSpelling? at h
  split at h
  · cases h
  · rename_i hne
    exact ⟨by simpa using List.find?_some h, by simpa using hne⟩

theorem ofSpelling?_eq_some_iff {text : String} {t : Token} :
    ofSpelling? text = some t ↔ t.spelling = text ∧ text ≠ "" :=
  ⟨spelling_of_ofSpelling?, fun ⟨ht, hne⟩ => ht ▸ ofSpelling?_spelling t (ht ▸ hne)⟩

theorem ne_number_of_ofSpelling? {text : String} {t : Token} (h : ofSpelling? text = some t) :
    t ≠ .atom .number := by
  rintro rfl
  obtain ⟨hs, hne⟩ := spelling_of_ofSpelling? h
  exact hne hs.symm

theorem ofSpelling?_minus {c : Char} {cs : List Char} :
    ofSpelling? (String.ofList ('-' :: c :: cs)) = none := by
  have hall : ∀ t ∈ all, t.spelling.toList.head? = some '-' → t.spelling.toList = ['-'] := by
    decide +kernel
  rw [Option.eq_none_iff_forall_ne_some]
  intro t ht
  have hs : t.spelling.toList = '-' :: c :: cs := by
    rw [(spelling_of_ofSpelling? ht).1, String.toList_ofList]
  have := hall t (mem_all t) (by rw [hs]; rfl)
  simp [hs] at this

end Token

namespace Lexer

/-! ## Lexemes -/

theorem isGraphic_of_isDigit {c : Char} (h : c.isDigit = true) : isGraphic c = true := by
  simp only [Char.isDigit, isGraphic, Bool.and_eq_true, decide_eq_true_eq, Char.le_def,
    UInt32.le_iff_toNat_le, ge_iff_le] at h ⊢
  have hlow : '!'.val.toNat = 33 := rfl
  have hhigh : '~'.val.toNat = 126 := rfl
  have hzero : '0'.val.toNat = 48 := rfl
  have hnine : '9'.val.toNat = 57 := rfl
  omega

theorem isGraphic_of_startsNumber {c : Char} (h : startsNumber c = true) : isGraphic c = true := by
  rw [startsNumber, Bool.or_eq_true, beq_iff_eq] at h
  rcases h with h | rfl
  · exact isGraphic_of_isDigit h
  · decide

theorem continuesNumber_of_startsNumber {c : Char} (h : startsNumber c = true) :
    continuesNumber c = true := by
  rw [continuesNumber, h, Bool.true_or]

theorem munch_number {c : Char} (h : startsNumber c = true) (cs : List Char) :
    munch c cs = (⟨.number, c :: cs.takeWhile continuesNumber⟩, cs.dropWhile continuesNumber) := by
  unfold munch
  rw [h, Bool.true_or, if_pos rfl]

/-- A minus sign right before a number belongs to it. -/
theorem munch_signed {cs : List Char} (h : nextIs startsNumber cs = true) :
    munch '-' cs = (⟨.number, '-' :: cs.takeWhile continuesNumber⟩, cs.dropWhile continuesNumber) := by
  unfold munch
  rw [h, if_pos (by decide)]

theorem takeWhile_append_of_nextIs {p : Char → Bool} {cs rest : List Char}
    (hcs : ∀ c ∈ cs, p c = true) (hrest : nextIs p rest = false) :
    (cs ++ rest).takeWhile p = cs := by
  rw [List.takeWhile_append_of_pos hcs]
  cases rest with
  | nil => exact List.append_nil cs
  | cons c rest =>
    have hc : p c = false := hrest
    rw [List.takeWhile_cons_of_neg (by simp [hc]), List.append_nil]

theorem dropWhile_append_of_nextIs {p : Char → Bool} {cs rest : List Char}
    (hcs : ∀ c ∈ cs, p c = true) (hrest : nextIs p rest = false) :
    (cs ++ rest).dropWhile p = rest := by
  rw [List.dropWhile_append_of_pos hcs]
  cases rest with
  | nil => rfl
  | cons c rest =>
    have hc : p c = false := hrest
    rw [List.dropWhile_cons_of_neg (by simp [hc])]

theorem nextIs_dropWhile (p : Char → Bool) (cs : List Char) :
    nextIs p (cs.dropWhile p) = false := by
  have hhead := List.head?_dropWhile_not p cs
  unfold nextIs
  cases hnext : (cs.dropWhile p).head? with
  | none => rfl
  | some c => rwa [hnext] at hhead

theorem not_startsNumber_of_isAlpha {c : Char} (h : c.isAlpha = true) : startsNumber c = false := by
  rw [startsNumber, Bool.or_eq_false_iff, beq_eq_false_iff_ne]
  constructor
  · rw [← Bool.not_eq_true]
    intro hdigit
    rw [Decimal.isAlpha_of_isDigit hdigit] at h
    cases h
  · rintro rfl
    cases h

theorem munch_word {c : Char} {cs rest : List Char} (hc : c.isAlpha = true)
    (hcs : ∀ d ∈ cs, d.isAlphanum = true) (hrest : nextIs Char.isAlphanum rest = false) :
    munch c (cs ++ rest) = (⟨.word, c :: cs⟩, rest) := by
  have hminus : (c == '-') = false := by
    rw [beq_eq_false_iff_ne]
    rintro rfl
    cases hc
  unfold munch
  rw [not_startsNumber_of_isAlpha hc, hminus, Bool.false_and, Bool.false_or, if_neg (by decide),
    if_pos hc, takeWhile_append_of_nextIs hcs hrest, dropWhile_append_of_nextIs hcs hrest]

structure StartsSymbol (c : Char) : Prop where
  isGraphic : isGraphic c = true
  not_startsNumber : startsNumber c = false
  not_isAlpha : c.isAlpha = false

theorem StartsSymbol.not_number {c : Char} {rest : List Char} (hc : StartsSymbol c)
    (hminus : c = '-' → nextIs startsNumber rest = false) :
    (startsNumber c || c == '-' && nextIs startsNumber rest) = false := by
  rw [hc.not_startsNumber, Bool.false_or, Bool.and_eq_false_imp, beq_iff_eq]
  exact hminus

theorem munch_pair {c d : Char} {rest : List Char} (hc : StartsSymbol c)
    (hminus : c = '-' → startsNumber d = false) (hd : isGraphic d = true)
    (hpair : (Token.ofSpelling? (String.ofList [c, d])).isSome = true) :
    munch c (d :: rest) = (⟨.symbol, [c, d]⟩, rest) := by
  have hnumber : (startsNumber c || c == '-' && nextIs startsNumber (d :: rest)) = false :=
    hc.not_number hminus
  unfold munch
  rw [hnumber, if_neg (by decide), if_neg (by simp [hc.not_isAlpha])]
  simp only [hd, hpair, Bool.and_true, if_true]

theorem munch_single {c : Char} {rest : List Char} (hc : StartsSymbol c)
    (hminus : c = '-' → nextIs startsNumber rest = false)
    (hpair : ∀ d ds, rest = d :: ds → isGraphic d = true →
      Token.ofSpelling? (String.ofList [c, d]) = none) :
    munch c rest = (⟨.symbol, [c]⟩, rest) := by
  unfold munch
  rw [hc.not_number hminus, if_neg (by decide), if_neg (by simp [hc.not_isAlpha])]
  cases rest with
  | nil => rfl
  | cons d ds =>
    cases hd : isGraphic d with
    | false => simp only [hd, Bool.false_and, Bool.false_eq_true, if_false]
    | true =>
      simp only [hd, hpair d ds rfl hd, Option.isSome_none, Bool.and_false, Bool.false_eq_true,
        if_false]

theorem munch_minus {cs : List Char} (h : nextIs startsNumber cs = false) :
    munch '-' cs = (⟨.symbol, ['-']⟩, cs) :=
  munch_single ⟨by decide, by decide, by decide⟩ (fun _ => h) fun _ _ _ _ =>
    Token.ofSpelling?_minus

theorem isGraphic_of_isAlphanum {c : Char} (h : c.isAlphanum = true) : isGraphic c = true := by
  have hcase : c.isAlpha = true ∨ c.isDigit = true := Bool.or_eq_true_iff.1 h
  rcases hcase with hletter | hdigit
  · have hbounds := Decimal.toNat_of_isAlpha hletter
    have hlow : '!'.toNat ≤ c.toNat := by
      have hcode : '!'.toNat = 33 := rfl
      omega
    have hhigh : c.toNat ≤ '~'.toNat := by
      have hcode : '~'.toNat = 126 := rfl
      omega
    exact Bool.and_eq_true_iff.2 ⟨decide_eq_true hlow, decide_eq_true hhigh⟩
  · exact isGraphic_of_isDigit hdigit

theorem utf8Size_of_isGraphic {c : Char} (h : isGraphic c = true) : c.utf8Size = 1 := by
  simp only [isGraphic, Bool.and_eq_true, decide_eq_true_eq] at h
  exact Char.utf8Size_eq_one_iff.2 (Nat.le_trans h.2 (by decide))

theorem utf8Len_eq_length {cs : List Char} (h : ∀ c ∈ cs, isGraphic c = true) :
    String.utf8Len cs = cs.length := by
  induction cs with
  | nil => rfl
  | cons c cs ih =>
    rw [String.utf8Len, ih fun d hd => h d (List.mem_cons_of_mem c hd),
      utf8Size_of_isGraphic (h c List.mem_cons_self), List.length_cons]

/-! ## Steps of a scan -/

theorem scan_cons {c : Char} {cs : List Char} {t : Token} {value : Option Float}
    (hc : isGraphic c = true) (h : classify (munch c cs).1 (munch c cs).2 = .ok (t, value))
    (offset : Nat) :
    scan offset (c :: cs) =
      (scan (offset + (munch c cs).1.spelling.length) (munch c cs).2).map
        (TokenText.cons t value) := by
  rw [scan, if_pos hc]
  simp only [h]

theorem scan_skip {c : Char} (hc : isGraphic c = false) (offset : Nat) (cs : List Char) :
    scan offset (c :: cs) = scan (offset + c.utf8Size) cs := by
  rw [scan, if_neg (by simp [hc])]

/-! ## Literals of a text -/

theorem readFloat?_minus {c : Char} (h : startsNumber c = true) (cs : List Char) :
    Decimal.readFloat? ('-' :: c :: cs) = (Decimal.readFloat? (c :: cs)).map (- ·) := by
  rw [startsNumber, Bool.or_eq_true, beq_iff_eq] at h
  rw [Decimal.readFloat?_eq h]
  rfl

/-- A lexeme stands for a `number` token exactly if it has a value. -/
theorem count_of_classify {l : Lexeme} {rest : List Char} {t : Token} {value : Option Float}
    (h : classify l rest = .ok (t, value)) :
    value.toList.length = [t].count (.atom .number) := by
  unfold classify at h
  split at h
  · split at h
    · cases h; rfl
    · cases h
  · split at h
    · cases h
    · rename_i ht
      split at h
      · cases h
      · cases h; simp [Token.ne_number_of_ofSpelling? ht]
  · split at h
    · cases h
    · rename_i ht
      cases h; simp [Token.ne_number_of_ofSpelling? ht]

theorem value_of_classify {l : Lexeme} {rest : List Char} {t : Token} {v : Float}
    (h : classify l rest = .ok (t, some v)) :
    l.shape = .number ∧ Decimal.readFloat? l.spelling = some v := by
  unfold classify at h
  split at h
  · rename_i hshape
    split at h
    · rename_i hread
      cases h
      exact ⟨hshape, hread⟩
    · cases h
  · split at h
    · cases h
    · split at h <;> cases h
  · split at h <;> cases h

theorem number_of_classify {l : Lexeme} {rest : List Char} {t : Token} {v : Float}
    (h : classify l rest = .ok (t, some v)) : t = .atom .number := by
  have hmem : .atom .number ∈ [t] := List.count_pos_iff.1 (by rw [← count_of_classify h]; exact Nat.one_pos)
  exact (List.mem_singleton.1 hmem).symm

theorem ne_number_of_classify {l : Lexeme} {rest : List Char} {t : Token}
    (h : classify l rest = .ok (t, none)) : t ≠ .atom .number := by
  rintro rfl
  cases count_of_classify h

/-- What holds of the empty text and is kept by a lexeme in front holds of every text. -/
theorem scan_induction {P : TokenText → Prop} (hnil : P {})
    (hcons : ∀ {c : Char} {cs : List Char} {t : Token} {value : Option Float} {text : TokenText},
      classify (munch c cs).1 (munch c cs).2 = .ok (t, value) → P text →
        P (TokenText.cons t value text))
    {offset : Nat} {cs : List Char} {text : TokenText} (h : scan offset cs = .ok text) : P text := by
  fun_induction scan offset cs generalizing text with
  | case1 => cases h; exact hnil
  | case2 => cases h
  | case3 offset c cs hc m t value hclass =>
    rename_i ih
    cases hrest : scan (offset + m.1.spelling.length) m.2 with
    | error e => rw [hrest] at h; cases h
    | ok rest =>
      rw [hrest] at h
      cases h
      exact hcons hclass (ih hrest)
  | case4 offset c cs hc ih => exact ih h

theorem literals_length_of_scan {offset : Nat} {cs : List Char} {text : TokenText}
    (h : scan offset cs = .ok text) :
    text.literals.length = text.tokens.count (.atom .number) := by
  refine scan_induction (P := fun text => text.literals.length = text.tokens.count (.atom .number))
    rfl (fun {c cs t value text} hclass ih => ?_) h
  rw [TokenText.cons, List.length_append, count_of_classify hclass, ih, ← List.count_append,
    List.singleton_append]

end Lexer

end Bytebeat
