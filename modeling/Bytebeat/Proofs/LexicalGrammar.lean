import Bytebeat.Proofs.Lexing
import Mathlib.Data.List.TakeWhile

/-!
# The lexical grammar

`IsLexeme l rest`: the part `l` of a text is a lexeme where `rest` comes after
it, each as long as it can be. A text is a row of lexemes with separators
between them (`Splits`) in at most one way (`Splits.unique`). The lexer takes
apart exactly these texts, and what it answers are the tokens and values of
their lexemes (`tokenize_eq_ok_iff`).
-/

namespace Bytebeat

namespace Token

theorem isGraphic_of_mem_spelling (t : Token) : ∀ c ∈ t.spelling.toList, Lexer.isGraphic c = true := by
  have hall : (all.all fun t => t.spelling.toList.all Lexer.isGraphic) = true := by decide +kernel
  exact List.all_eq_true.1 (List.all_eq_true.1 hall t (mem_all t))

theorem ofSpelling?_ofList_iff {c : Char} {cs : List Char} {t : Token} :
    ofSpelling? (String.ofList (c :: cs)) = some t ↔ t.spelling.toList = c :: cs := by
  rw [ofSpelling?_eq_some_iff]
  constructor
  · rintro ⟨h, -⟩
    rw [h, String.toList_ofList]
  · intro h
    refine ⟨by rw [← h, String.ofList_toList], fun hempty => ?_⟩
    have hnil := congrArg String.toList hempty
    rw [String.toList_ofList] at hnil
    cases hnil

end Token

namespace Lexer

/-! ## Lexemes -/

/-- A part of a text that stands for a token, with its value if it is a literal. -/
structure Part where
  spelling : List Char
  token : Token
  value : Option Float
  deriving DecidableEq, Repr

/-- The part is a lexeme of a text in which `rest` comes after it. -/
inductive IsLexeme : Part → List Char → Prop where
  /-- A word goes on as long as there are letters and digits, and names a token. -/
  | word {c : Char} {cs rest : List Char} {t : Token} :
      c.isAlpha = true → (∀ d ∈ cs, d.isAlphanum = true) → nextIs Char.isAlphanum rest = false →
      t.spelling.toList = c :: cs → ¬(t.arity = .unary ∧ nextIs (· == '(') rest = true) →
      IsLexeme ⟨c :: cs, t, none⟩ rest
  /-- A literal, with a minus sign or without, is a decimal number. -/
  | number {sign : List Char} {c : Char} {cs rest : List Char} {v : Float} :
      sign = [] ∨ sign = ['-'] → startsNumber c = true → (∀ d ∈ cs, continuesNumber d = true) →
      nextIs continuesNumber rest = false → Decimal.readFloat? (sign ++ c :: cs) = some v →
      IsLexeme ⟨sign ++ c :: cs, .atom .number, some v⟩ rest
  | minus {rest : List Char} :
      nextIs startsNumber rest = false → IsLexeme ⟨['-'], .binary .subtract, none⟩ rest
  /-- Two characters are a symbol if they name a token. -/
  | pair {c d : Char} {rest : List Char} {t : Token} :
      StartsSymbol c → c ≠ '-' → t.spelling.toList = [c, d] → IsLexeme ⟨[c, d], t, none⟩ rest
  /-- One character is a symbol if it names a token and does not with the next one. -/
  | single {c : Char} {rest : List Char} {t : Token} :
      StartsSymbol c → c ≠ '-' → t.spelling.toList = [c] →
      (∀ d ds, rest = d :: ds → ∀ u : Token, u.spelling.toList ≠ [c, d]) →
      IsLexeme ⟨[c], t, none⟩ rest

/-- A text is a row of lexemes, with any number of separators before, between and after them. -/
inductive Splits : List Char → List Part → Prop where
  | nil : Splits [] []
  | separator {c : Char} {cs : List Char} {parts : List Part} :
      isGraphic c = false → Splits cs parts → Splits (c :: cs) parts
  | lexeme {l : Part} {rest : List Char} {parts : List Part} :
      IsLexeme l rest → Splits rest parts → Splits (l.spelling ++ rest) (l :: parts)

variable {l : Part} {c : Char} {cs rest : List Char} {t : Token} {value : Option Float}

theorem isGraphic_of_continuesNumber (h : continuesNumber c = true) : isGraphic c = true := by
  rw [continuesNumber, Bool.or_eq_true, beq_iff_eq] at h
  rcases h with h | rfl
  · exact isGraphic_of_startsNumber h
  · decide

/-! ## What the lexer delimits and classifies -/

theorem isCall_iff :
    (t.arity == .unary && nextIs (· == '(') rest) = true ↔
      t.arity = .unary ∧ nextIs (· == '(') rest = true := by
  rw [Bool.and_eq_true, beq_iff_eq]

theorem classify_word_eq_ok_iff :
    classify ⟨.word, c :: cs⟩ rest = .ok (t, value) ↔
      t.spelling.toList = c :: cs ∧ ¬(t.arity = .unary ∧ nextIs (· == '(') rest = true) ∧
        value = none := by
  rw [← Token.ofSpelling?_ofList_iff]
  simp only [classify]
  cases Token.ofSpelling? (String.ofList (c :: cs)) with
  | none => exact ⟨nofun, nofun⟩
  | some u =>
    simp only [isCall_iff]
    constructor
    · intro h
      split at h
      · cases h
      · rename_i hnot
        cases h
        exact ⟨rfl, hnot, rfl⟩
    · rintro ⟨⟨⟩, hnot, rfl⟩
      rw [if_neg hnot]

theorem classify_number_eq_ok_iff :
    classify ⟨.number, cs⟩ rest = .ok (t, value) ↔
      ∃ v, Decimal.readFloat? cs = some v ∧ t = .atom .number ∧ value = some v := by
  simp only [classify]
  cases Decimal.readFloat? cs with
  | none => exact ⟨nofun, nofun⟩
  | some v =>
    constructor
    · rintro ⟨⟩
      exact ⟨v, rfl, rfl, rfl⟩
    · rintro ⟨_, ⟨⟩, rfl, rfl⟩
      rfl

theorem classify_symbol_eq_ok_iff :
    classify ⟨.symbol, c :: cs⟩ rest = .ok (t, value) ↔
      t.spelling.toList = c :: cs ∧ value = none := by
  rw [← Token.ofSpelling?_ofList_iff]
  simp only [classify]
  cases Token.ofSpelling? (String.ofList (c :: cs)) with
  | none => exact ⟨nofun, nofun⟩
  | some u =>
    constructor
    · rintro ⟨⟩
      exact ⟨rfl, rfl⟩
    · rintro ⟨⟨⟩, rfl⟩
      rfl

/-- The parts that the lexer delimits where `rest` comes after them, whatever they stand for. -/
inductive Munches : LexemeShape → List Char → List Char → Prop where
  | number {sign : List Char} {c : Char} {cs rest : List Char} :
      sign = [] ∨ sign = ['-'] → startsNumber c = true → (∀ d ∈ cs, continuesNumber d = true) →
      nextIs continuesNumber rest = false → Munches .number (sign ++ c :: cs) rest
  | word {c : Char} {cs rest : List Char} :
      c.isAlpha = true → (∀ d ∈ cs, d.isAlphanum = true) → nextIs Char.isAlphanum rest = false →
      Munches .word (c :: cs) rest
  | minus {rest : List Char} : nextIs startsNumber rest = false → Munches .symbol ['-'] rest
  | pair {c d : Char} {rest : List Char} {t : Token} :
      StartsSymbol c → c ≠ '-' → t.spelling.toList = [c, d] → Munches .symbol [c, d] rest
  | single {c : Char} {rest : List Char} :
      StartsSymbol c → c ≠ '-' →
      (∀ d ds, rest = d :: ds → ∀ u : Token, u.spelling.toList ≠ [c, d]) →
      Munches .symbol [c] rest

theorem Munches.isGraphic {shape : LexemeShape} {l rest : List Char} (h : Munches shape l rest) :
    ∀ c ∈ l, isGraphic c = true := by
  cases h with
  | number hsign hc hcs _ =>
    intro d hd
    rcases List.mem_append.1 hd with hd | hd
    · rcases hsign with rfl | rfl
      · cases hd
      · rw [List.mem_singleton.1 hd]; decide
    · rcases List.mem_cons.1 hd with rfl | hd
      · exact isGraphic_of_startsNumber hc
      · exact isGraphic_of_continuesNumber (hcs d hd)
  | word hc hcs _ =>
    exact List.forall_mem_cons.2 ⟨isGraphic_of_isAlphanum (Bool.or_eq_true_iff.2 (.inl hc)),
      fun d hd => isGraphic_of_isAlphanum (hcs d hd)⟩
  | minus _ => exact Token.isGraphic_of_mem_spelling (.binary .subtract)
  | pair _ _ ht => exact ht ▸ Token.isGraphic_of_mem_spelling _
  | single hc _ _ => exact List.forall_mem_singleton.2 hc.isGraphic

theorem Munches.munch_eq {shape : LexemeShape} {l rest : List Char} (h : Munches shape l rest) :
    ∃ c cs, l = c :: cs ∧ Lexer.isGraphic c = true ∧ munch c (cs ++ rest) = (⟨shape, l⟩, rest) := by
  cases h with
  | @number sign c cs _ hsign hc hcs hrest =>
    rcases hsign with rfl | rfl
    · refine ⟨c, cs, rfl, isGraphic_of_startsNumber hc, ?_⟩
      rw [munch_number hc, takeWhile_append_of_nextIs hcs hrest,
        dropWhile_append_of_nextIs hcs hrest]
      rfl
    · have hcs : ∀ d ∈ c :: cs, continuesNumber d = true :=
        List.forall_mem_cons.2 ⟨continuesNumber_of_startsNumber hc, hcs⟩
      refine ⟨'-', c :: cs, rfl, by decide, ?_⟩
      rw [munch_signed (show nextIs startsNumber (c :: cs ++ rest) = true from hc),
        takeWhile_append_of_nextIs hcs hrest, dropWhile_append_of_nextIs hcs hrest]
      rfl
  | @word c cs _ hc hcs hrest =>
    exact ⟨c, cs, rfl, isGraphic_of_isAlphanum (Bool.or_eq_true_iff.2 (.inl hc)),
      munch_word hc hcs hrest⟩
  | minus hrest => exact ⟨'-', [], rfl, by decide, munch_minus hrest⟩
  | @pair c d _ t hc hminus ht =>
    have hd : Lexer.isGraphic d = true :=
      Token.isGraphic_of_mem_spelling t d (ht ▸ List.mem_cons_of_mem _ List.mem_cons_self)
    exact ⟨c, [d], rfl, hc.isGraphic, munch_pair hc (fun h => absurd h hminus) hd
      (by rw [Token.ofSpelling?_ofList_iff.2 ht]; rfl)⟩
  | @single c _ hc hminus hpair =>
    refine ⟨c, [], rfl, hc.isGraphic, munch_single hc (fun h => absurd h hminus) ?_⟩
    intro d ds hrest _
    rw [Option.eq_none_iff_forall_ne_some]
    exact fun u hu => hpair d ds hrest u (Token.ofSpelling?_ofList_iff.1 hu)

theorem Munches.scan_eq {shape : LexemeShape} {l rest : List Char} (h : Munches shape l rest)
    (offset : Nat) :
    scan offset (l ++ rest) =
      match classify ⟨shape, l⟩ rest with
      | .ok (t, value) => (scan (offset + l.length) rest).map (TokenText.cons t value)
      | .error fault =>
        .error ⟨fault, String.ofList (l.take LexError.spellingLimit), offset⟩ := by
  obtain ⟨c, cs, rfl, hc, hmunch⟩ := h.munch_eq
  rw [List.cons_append, scan, if_pos hc]
  simp only [hmunch]
  cases classify ⟨shape, c :: cs⟩ rest <;> rfl

theorem munches_number (hc : startsNumber c = true ∨ c = '-' ∧ nextIs startsNumber cs = true) :
    Munches .number (c :: cs.takeWhile continuesNumber) (cs.dropWhile continuesNumber) := by
  have hrest := nextIs_dropWhile continuesNumber cs
  rcases hc with hc | ⟨rfl, hnext⟩
  · exact @Munches.number [] _ _ _ (.inl rfl) hc (fun d hd => List.mem_takeWhile_imp hd) hrest
  · match cs with
    | [] => cases hnext
    | d :: ds =>
      have hd : startsNumber d = true := hnext
      have hcontinues := continuesNumber_of_startsNumber hd
      rw [List.takeWhile_cons_of_pos hcontinues]
      rw [List.dropWhile_cons_of_pos hcontinues] at hrest ⊢
      exact @Munches.number ['-'] _ _ _ (.inr rfl) hd (fun d hd => List.mem_takeWhile_imp hd) hrest

theorem munches (hc : isGraphic c = true) (cs : List Char) :
    Munches (munch c cs).1.shape (munch c cs).1.spelling (munch c cs).2 := by
  by_cases hnumber : startsNumber c = true ∨ c = '-' ∧ nextIs startsNumber cs = true
  · have hmunch : munch c cs =
        (⟨.number, c :: cs.takeWhile continuesNumber⟩, cs.dropWhile continuesNumber) := by
      rcases hnumber with hc | ⟨rfl, hnext⟩
      · exact munch_number hc cs
      · exact munch_signed hnext
    rw [hmunch]
    exact munches_number hnumber
  rw [not_or, not_and, Bool.not_eq_true, Bool.not_eq_true] at hnumber
  cases halpha : c.isAlpha with
  | true =>
    have hall : ∀ d ∈ cs.takeWhile Char.isAlphanum, d.isAlphanum = true := fun d hd =>
      List.mem_takeWhile_imp hd
    have hrest := nextIs_dropWhile Char.isAlphanum cs
    have hmunch := munch_word halpha hall hrest
    rw [List.takeWhile_append_dropWhile] at hmunch
    rw [hmunch]
    exact .word halpha hall hrest
  | false =>
    have hsymbol : StartsSymbol c := ⟨hc, hnumber.1, halpha⟩
    by_cases hdash : c = '-'
    · subst hdash
      rw [munch_minus (hnumber.2 rfl)]
      exact .minus (hnumber.2 rfl)
    by_cases hpair : ∃ d ds, cs = d :: ds ∧ ∃ u : Token, u.spelling.toList = [c, d]
    · obtain ⟨d, ds, rfl, u, hu⟩ := hpair
      have hd : Lexer.isGraphic d = true :=
        Token.isGraphic_of_mem_spelling u d (hu ▸ List.mem_cons_of_mem _ List.mem_cons_self)
      rw [munch_pair hsymbol (fun h => absurd h hdash) hd
        (by rw [Token.ofSpelling?_ofList_iff.2 hu]; rfl)]
      exact .pair hsymbol hdash hu
    · have hnone : ∀ d ds, cs = d :: ds → ∀ u : Token, u.spelling.toList ≠ [c, d] :=
        fun d ds hcs u hu => hpair ⟨d, ds, hcs, u, hu⟩
      rw [munch_single hsymbol (fun h => absurd h hdash) fun d ds hcs _ => by
        rw [Option.eq_none_iff_forall_ne_some]
        exact fun u hu => hnone d ds hcs u (Token.ofSpelling?_ofList_iff.1 hu)]
      exact .single hsymbol hdash hnone

theorem IsLexeme.munches (h : IsLexeme l rest) :
    ∃ shape, Munches shape l.spelling rest ∧
      classify ⟨shape, l.spelling⟩ rest = .ok (l.token, l.value) := by
  cases h with
  | word hc hcs hrest ht hcall =>
    exact ⟨_, .word hc hcs hrest, classify_word_eq_ok_iff.2 ⟨ht, hcall, rfl⟩⟩
  | @number sign c cs _ v hsign hc hcs hrest hv =>
    exact ⟨_, .number hsign hc hcs hrest, classify_number_eq_ok_iff.2 ⟨v, hv, rfl, rfl⟩⟩
  | minus hrest => exact ⟨_, .minus hrest, rfl⟩
  | pair hc hminus ht => exact ⟨_, .pair hc hminus ht, classify_symbol_eq_ok_iff.2 ⟨ht, rfl⟩⟩
  | single hc hminus ht hpair =>
    exact ⟨_, .single hc hminus hpair, classify_symbol_eq_ok_iff.2 ⟨ht, rfl⟩⟩

theorem IsLexeme.isGraphic (h : IsLexeme l rest) : ∀ c ∈ l.spelling, isGraphic c = true := by
  obtain ⟨_, hmunches, -⟩ := h.munches
  exact hmunches.isGraphic

theorem IsLexeme.munch_eq (h : IsLexeme l rest) :
    ∃ c cs shape, l.spelling = c :: cs ∧ munch c (cs ++ rest) = (⟨shape, c :: cs⟩, rest) ∧
      classify ⟨shape, c :: cs⟩ rest = .ok (l.token, l.value) := by
  obtain ⟨shape, hmunches, hclass⟩ := h.munches
  obtain ⟨c, cs, hspelling, -, hmunch⟩ := hmunches.munch_eq
  rw [hspelling] at hmunch hclass
  exact ⟨c, cs, shape, hspelling, hmunch, hclass⟩

theorem IsLexeme.exists_cons (h : IsLexeme l rest) :
    ∃ c cs, l.spelling = c :: cs ∧ Lexer.isGraphic c = true := by
  obtain ⟨c, cs, _, hspelling, -⟩ := h.munch_eq
  exact ⟨c, cs, hspelling, h.isGraphic c (hspelling ▸ List.mem_cons_self)⟩

theorem isLexeme_of_classify (hc : isGraphic c = true)
    (h : classify (munch c cs).1 (munch c cs).2 = .ok (t, value)) :
    IsLexeme ⟨(munch c cs).1.spelling, t, value⟩ (munch c cs).2 := by
  have hmunches := Lexer.munches hc cs
  generalize munch c cs = m at h hmunches ⊢
  obtain ⟨⟨shape, l⟩, rest⟩ := m
  cases hmunches with
  | number hsign hc hcs hrest =>
    obtain ⟨v, hv, rfl, rfl⟩ := classify_number_eq_ok_iff.1 h
    exact .number hsign hc hcs hrest hv
  | word hc hcs hrest =>
    obtain ⟨ht, hcall, rfl⟩ := classify_word_eq_ok_iff.1 h
    exact .word hc hcs hrest ht hcall
  | minus hrest => cases h; exact .minus hrest
  | pair hc hminus _ =>
    obtain ⟨ht, rfl⟩ := classify_symbol_eq_ok_iff.1 h
    exact .pair hc hminus ht
  | single hc hminus hpair =>
    obtain ⟨ht, rfl⟩ := classify_symbol_eq_ok_iff.1 h
    exact .single hc hminus ht hpair

theorem munch_append (c : Char) (cs : List Char) :
    (munch c cs).1.spelling ++ (munch c cs).2 = c :: cs := by
  unfold munch
  split
  · rw [List.cons_append, List.takeWhile_append_dropWhile]
  · split
    · rw [List.cons_append, List.takeWhile_append_dropWhile]
    · split
      · rfl
      · split <;> rfl

/-! ## Rows of lexemes -/

def tokenText (parts : List Part) : TokenText :=
  ⟨parts.map (·.token), parts.filterMap (·.value)⟩

theorem tokenText_cons (l : Part) (parts : List Part) :
    tokenText (l :: parts) = TokenText.cons l.token l.value (tokenText parts) := by
  cases hl : l.value <;> simp [tokenText, TokenText.cons, hl]

theorem Splits.scan_eq {parts : List Part} (h : Splits cs parts) :
    ∀ offset, scan offset cs = .ok (tokenText parts) := by
  induction h with
  | nil => intro offset; rw [scan]; rfl
  | separator hc _ ih => intro offset; rw [scan_skip hc, ih]
  | @lexeme l rest parts hl _ ih =>
    intro offset
    obtain ⟨c, cs, shape, hspelling, hmunch, hclass⟩ := hl.munch_eq
    have hc : Lexer.isGraphic c = true := hl.isGraphic c (hspelling ▸ List.mem_cons_self)
    rw [hspelling, List.cons_append, scan_cons hc (by rw [hmunch]; exact hclass), hmunch, ih,
      tokenText_cons]
    rfl

theorem exists_splits_of_scan {offset : Nat} {text : TokenText} (h : scan offset cs = .ok text) :
    ∃ parts, Splits cs parts ∧ tokenText parts = text := by
  fun_induction scan offset cs generalizing text with
  | case1 => cases h; exact ⟨[], .nil, rfl⟩
  | case2 => cases h
  | case3 offset c cs hc m t value hclass =>
    rename_i ih
    cases hrest : scan (offset + m.1.spelling.length) m.2 with
    | error e => rw [hrest] at h; cases h
    | ok rest =>
      rw [hrest] at h
      cases h
      obtain ⟨parts, hparts, rfl⟩ := ih hrest
      refine ⟨⟨m.1.spelling, t, value⟩ :: parts, ?_, tokenText_cons _ _⟩
      rw [← munch_append c cs]
      exact .lexeme (isLexeme_of_classify hc hclass) hparts
  | case4 offset c cs hc ih =>
    obtain ⟨parts, hparts, htext⟩ := ih h
    exact ⟨parts, .separator (Bool.eq_false_iff.2 hc) hparts, htext⟩

/-- The lexeme at the start of a text is one and the same in every way to split it. -/
theorem IsLexeme.unique {l' : Part} {rest' : List Char} (h : IsLexeme l rest)
    (h' : IsLexeme l' rest') (heq : l.spelling ++ rest = l'.spelling ++ rest') :
    l = l' ∧ rest = rest' := by
  obtain ⟨c, cs, shape, hspelling, hmunch, hclass⟩ := h.munch_eq
  obtain ⟨c', cs', shape', hspelling', hmunch', hclass'⟩ := h'.munch_eq
  rw [hspelling, hspelling', List.cons_append, List.cons_append, List.cons.injEq] at heq
  obtain ⟨rfl, heq⟩ := heq
  rw [heq, hmunch'] at hmunch
  cases hmunch
  rw [hclass', Except.ok.injEq, Prod.mk.injEq] at hclass
  obtain ⟨spelling, token, value⟩ := l
  obtain ⟨spelling', token', value'⟩ := l'
  obtain ⟨rfl, rfl⟩ := hclass
  obtain rfl : spelling = spelling' := hspelling.trans hspelling'.symm
  exact ⟨rfl, rfl⟩

theorem Splits.unique {parts parts' : List Part} (h : Splits cs parts) (h' : Splits cs parts') :
    parts = parts' := by
  induction h generalizing parts' with
  | nil =>
    generalize htext : ([] : List Char) = text at h'
    cases h' with
    | nil => rfl
    | separator _ _ => cases htext
    | lexeme hl _ =>
      obtain ⟨c, cs, hspelling, -⟩ := hl.exists_cons
      rw [hspelling] at htext
      cases htext
  | @separator c cs parts hc _ ih =>
    generalize htext : c :: cs = text at h'
    cases h' with
    | nil => cases htext
    | separator _ h' =>
      cases htext
      exact ih h'
    | lexeme hl _ =>
      obtain ⟨d, ds, hspelling, hd⟩ := hl.exists_cons
      rw [hspelling, List.cons_append] at htext
      cases htext
      rw [hc] at hd
      cases hd
  | @lexeme l rest parts hl _ ih =>
    generalize htext : l.spelling ++ rest = text at h'
    obtain ⟨d, ds, hspelling, hd⟩ := hl.exists_cons
    cases h' with
    | nil => rw [hspelling] at htext; cases htext
    | separator hc _ =>
      rw [hspelling, List.cons_append] at htext
      cases htext
      rw [hc] at hd
      cases hd
    | lexeme hl' h' =>
      obtain ⟨rfl, rfl⟩ := hl.unique hl' htext
      rw [ih h']

theorem Splits.flatMap_spelling {parts : List Part} (h : Splits cs parts) :
    parts.flatMap (·.spelling) = cs.filter isGraphic := by
  induction h with
  | nil => rfl
  | separator hc _ ih => rw [List.filter_cons_of_neg (by simp [hc]), ih]
  | lexeme hl _ ih =>
    rw [List.flatMap_cons, List.filter_append, List.filter_eq_self.2 hl.isGraphic, ih]

theorem IsLexeme.value_isSome_iff (h : IsLexeme l rest) :
    l.value.isSome = true ↔ l.token = .atom .number := by
  have hne : ∀ {t : Token} {c : Char} {cs : List Char}, t.spelling.toList = c :: cs →
      t ≠ .atom .number := by
    rintro t c cs ht rfl
    cases ht
  cases h with
  | number => exact ⟨fun _ => rfl, fun _ => rfl⟩
  | minus _ => exact ⟨nofun, nofun⟩
  | word _ _ _ ht _ | pair _ _ ht | single _ _ ht _ => exact ⟨nofun, fun h => absurd h (hne ht)⟩

theorem Splits.value_isSome_iff {parts : List Part} (h : Splits cs parts) :
    ∀ l ∈ parts, l.value.isSome = true ↔ l.token = .atom .number := by
  induction h with
  | nil => nofun
  | separator _ _ ih => exact ih
  | lexeme hl _ ih => exact List.forall_mem_cons.2 ⟨hl.value_isSome_iff, ih⟩

/-! ## Bytes of a text -/

def isGraphicByte (b : UInt8) : Bool := 33 ≤ b && b ≤ 126

theorem isGraphicByte_ofNat {n : Nat} (h : n < 256) :
    isGraphicByte (.ofNat n) = decide (33 ≤ n ∧ n ≤ 126) := by
  have hn : (UInt8.ofNat n).toNat = n := UInt8.toNat_ofNat_of_lt' h
  rw [isGraphicByte, Bool.decide_and]
  simp only [UInt8.le_iff_toNat_le, hn]
  rfl

/-- A character is printable ASCII if its only byte is; no byte of any other is. -/
theorem filter_utf8EncodeChar (c : Char) :
    (String.utf8EncodeChar c).filter isGraphicByte =
      if isGraphic c then [c.toUInt8] else [] := by
  have hgraphic : isGraphic c = decide (33 ≤ c.val.toNat ∧ c.val.toNat ≤ 126) := by
    rw [isGraphic, Bool.decide_and]
    rfl
  rw [hgraphic]
  simp only [String.utf8EncodeChar]
  by_cases hone : c.val.toNat ≤ 127
  · rw [if_pos hone, List.filter_cons, isGraphicByte_ofNat (by omega)]
    rfl
  · rw [if_neg hone, decide_eq_false (by omega), if_neg Bool.false_ne_true, List.filter_eq_nil_iff]
    intro b hb
    obtain ⟨n, hlow, hhigh, rfl⟩ : ∃ n, 128 ≤ n ∧ n < 256 ∧ b = .ofNat n := by
      split at hb
      · simp only [List.mem_cons, List.not_mem_nil, or_false] at hb
        rcases hb with rfl | rfl <;> exact ⟨_, by omega, by omega, rfl⟩
      · split at hb <;> simp only [List.mem_cons, List.not_mem_nil, or_false] at hb
        · rcases hb with rfl | rfl | rfl <;> exact ⟨_, by omega, by omega, rfl⟩
        · rcases hb with rfl | rfl | rfl | rfl <;> exact ⟨_, by omega, by omega, rfl⟩
    rw [isGraphicByte_ofNat hhigh, decide_eq_true_eq]
    omega

theorem toUTF8_toList (text : String) :
    text.toUTF8.data.toList = text.toList.flatMap String.utf8EncodeChar := by
  rw [String.toUTF8, ← String.utf8Encode_toList, List.utf8Encode, List.data_toByteArray]

theorem filter_toUTF8 (text : String) :
    text.toUTF8.data.toList.filter isGraphicByte =
      (text.toList.filter isGraphic).map Char.toUInt8 := by
  rw [toUTF8_toList]
  induction text.toList with
  | nil => rfl
  | cons c cs ih =>
    rw [List.flatMap_cons, List.filter_append, ih, filter_utf8EncodeChar, List.filter_cons]
    split <;> rfl

end Lexer

/-- **A text is taken apart exactly if it is a row of lexemes with separators between them**, into
their tokens and the values of the literals among them, of which each has one. There is no other
way to split it, and each printable byte of the text is in one of the lexemes. -/
theorem tokenize_eq_ok_iff (text : String) :
    (∀ t, tokenize text = .ok t ↔
        ∃ parts, Lexer.Splits text.toList parts ∧
          t.tokens = parts.map (·.token) ∧ t.literals = parts.filterMap (·.value)) ∧
      ∀ parts, Lexer.Splits text.toList parts →
        (∀ parts', Lexer.Splits text.toList parts' → parts' = parts) ∧
          (∀ l ∈ parts, l.value.isSome = true ↔ l.token = .atom .number) ∧
          (parts.flatMap (·.spelling)).map Char.toUInt8 =
            text.toUTF8.data.toList.filter Lexer.isGraphicByte := by
  refine ⟨fun t => ⟨fun h => ?_, ?_⟩, fun parts h => ⟨fun parts' h' => h'.unique h,
    h.value_isSome_iff, ?_⟩⟩
  · obtain ⟨parts, hparts, rfl⟩ := Lexer.exists_splits_of_scan h
    exact ⟨parts, hparts, rfl, rfl⟩
  · rintro ⟨parts, hparts, htokens, hliterals⟩
    have htext : t = Lexer.tokenText parts := by
      obtain ⟨tokens, literals⟩ := t
      obtain rfl : tokens = _ := htokens
      obtain rfl : literals = _ := hliterals
      rfl
    rw [tokenize, hparts.scan_eq, htext]
  · rw [h.flatMap_spelling, Lexer.filter_toUTF8]

end Bytebeat
