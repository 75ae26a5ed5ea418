import Bytebeat.Proofs.Compiled
import Bytebeat.Proofs.Decimals
import Bytebeat.Proofs.Meaning

/-!
# Printed programs

The text of a program is its tokens in postfix order with a blank between two
of them. Each token but a literal is taken apart as it is spelled
(`Lexer.scans_spelling`), and so is a finite literal (`Lexer.scans_text`);
hence compiling the text of a program gives the program again. The text of an
infinite literal is a word that names no token, and the first of these is what
compiling fails at (`Program.compile_text`).
-/

namespace Bytebeat

namespace Lexer

/-! ## Words -/

/-- What can follow a word: a blank, or nothing. -/
def Ends (rest : List Char) : Prop := ∀ c ∈ rest.head?, c = ' '

theorem ends_nil : Ends [] := fun _ h => by cases h

theorem ends_blank (cs : List Char) : Ends (' ' :: cs) := by rintro c ⟨⟩; rfl

theorem Ends.nextIs {p : Char → Bool} {rest : List Char} (h : Ends rest) (hp : p ' ' = false) :
    nextIs p rest = false := by
  cases rest with
  | nil => rfl
  | cons c rest => rw [h c rfl]; exact hp

/-! ## Spellings -/

/-- A word that the lexer does not cut. -/
def isWord : List Char → Bool
  | [] => false
  | c :: cs => c.isAlpha && cs.all Char.isAlphanum

/-- A symbol that the lexer does not cut if nothing comes right after it. -/
def isSymbol : List Char → Bool
  | [c] => isGraphic c && !startsNumber c && !c.isAlpha
  | [c, d] => isGraphic c && !startsNumber c && !c.isAlpha && isGraphic d && !startsNumber d
  | _ => false

theorem exists_of_isWord {cs : List Char} (h : isWord cs = true) :
    ∃ c ds, cs = c :: ds ∧ c.isAlpha = true ∧ ∀ d ∈ ds, d.isAlphanum = true := by
  cases cs with
  | nil => cases h
  | cons c ds =>
    rw [isWord, Bool.and_eq_true, List.all_eq_true] at h
    exact ⟨c, ds, rfl, h⟩

theorem exists_of_isSymbol {cs : List Char} (h : isSymbol cs = true) :
    (∃ c, cs = [c] ∧ StartsSymbol c) ∨
      ∃ c d, cs = [c, d] ∧ StartsSymbol c ∧ isGraphic d = true ∧ startsNumber d = false := by
  unfold isSymbol at h
  split at h
  · rename_i c
    simp only [Bool.and_eq_true, Bool.not_eq_true'] at h
    obtain ⟨⟨hgraphic, hnumber⟩, halpha⟩ := h
    exact .inl ⟨c, rfl, hgraphic, hnumber, halpha⟩
  · rename_i c d
    simp only [Bool.and_eq_true, Bool.not_eq_true'] at h
    obtain ⟨⟨⟨⟨hgraphic, hnumber⟩, halpha⟩, hd⟩, hnext⟩ := h
    exact .inr ⟨c, d, rfl, ⟨hgraphic, hnumber, halpha⟩, hd, hnext⟩
  · cases h

theorem isWord_or_isSymbol (t : Token) (h : t.spelling ≠ "") :
    isWord t.spelling.toList = true ∨ isSymbol t.spelling.toList = true := by
  have hall : ∀ t ∈ Token.all, t.spelling ≠ "" →
      isWord t.spelling.toList = true ∨ isSymbol t.spelling.toList = true := by decide +kernel
  exact hall t (Token.mem_all t) h

/-- The text `w` is taken apart as the token `t`, wherever it stands between blanks. -/
def Scans (w : String) (t : Token) (value : Option Float) : Prop :=
  ∀ (offset : Nat) (rest : List Char), Ends rest →
    scan offset (w.toList ++ rest) =
      (scan (offset + w.utf8ByteSize) rest).map (TokenText.cons t value)

theorem scans_of_munch {w : String} {c : Char} {cs : List Char} {shape : LexemeShape} {t : Token}
    {value : Option Float} (hw : w.toList = c :: cs) (hgraphic : ∀ d ∈ c :: cs, isGraphic d = true)
    (hmunch : ∀ rest, Ends rest → munch c (cs ++ rest) = (⟨shape, c :: cs⟩, rest))
    (hclass : ∀ rest, Ends rest → classify ⟨shape, c :: cs⟩ rest = .ok (t, value)) :
    Scans w t value := by
  intro offset rest hrest
  have hsize : w.utf8ByteSize = (c :: cs).length := by
    rw [← utf8Len_eq_length hgraphic, ← String.utf8ByteSize_ofList, ← hw, String.ofList_toList]
  have hstep : classify (munch c (cs ++ rest)).1 (munch c (cs ++ rest)).2 = .ok (t, value) := by
    rw [hmunch rest hrest]
    exact hclass rest hrest
  rw [hw, List.cons_append, scan_cons (hgraphic c List.mem_cons_self) hstep, hmunch rest hrest, hsize]

theorem scans_spelling (t : Token) (h : t.spelling ≠ "") : Scans t.spelling t none := by
  have htoken : Token.ofSpelling? (String.ofList t.spelling.toList) = some t := by
    rw [String.ofList_toList, Token.ofSpelling?_spelling t h]
  obtain ⟨cs, hcs⟩ : ∃ cs, t.spelling.toList = cs := ⟨_, rfl⟩
  have hshape := isWord_or_isSymbol t h
  rw [hcs] at hshape htoken
  rcases hshape with hword | hsymbol
  · obtain ⟨c, ds, rfl, hc, hds⟩ := exists_of_isWord hword
    refine scans_of_munch hcs ?_ (fun rest hends => munch_word hc hds (hends.nextIs rfl))
      fun rest hends => ?_
    · intro d hd
      rcases List.mem_cons.1 hd with rfl | hd
      · exact isGraphic_of_isAlphanum (by rw [Char.isAlphanum, hc, Bool.true_or])
      · exact isGraphic_of_isAlphanum (hds d hd)
    · have hcall : nextIs (· == '(') rest = false := hends.nextIs rfl
      simp only [classify, htoken, hcall, Bool.and_false, Bool.false_eq_true, if_false]
  · have hclass : ∀ rest, Ends rest → classify ⟨.symbol, cs⟩ rest = .ok (t, none) := by
      intro rest _
      simp only [classify, htoken]
    rcases exists_of_isSymbol hsymbol with ⟨c, rfl, hc⟩ | ⟨c, d, rfl, hc, hd, hnext⟩
    · refine scans_of_munch hcs ?_ (fun rest hends => ?_) hclass
      · intro e he
        exact List.mem_singleton.1 he ▸ hc.isGraphic
      · refine munch_single hc (fun _ => hends.nextIs rfl) fun d ds hrest hd => ?_
        obtain rfl : rest = d :: ds := hrest
        obtain rfl := hends d rfl
        cases hd
    · refine scans_of_munch hcs ?_ (fun rest _ => ?_) hclass
      · intro e he
        rcases List.mem_cons.1 he with rfl | he
        · exact hc.isGraphic
        · exact List.mem_singleton.1 he ▸ hd
      · exact munch_pair hc (fun _ => hnext) hd (by rw [htoken]; rfl)

theorem scans_text {x : Float} (hx : x.isFinite = true) :
    Scans (Decimal.text x) (.atom .number) (some x) := by
  obtain ⟨p, hp⟩ := Double.Parts.exists_ofFloat? hx
  obtain ⟨c, cs, hlayout, hc, hcs⟩ := Decimal.layout_spec (Decimal.shortest p)
  have htext : (Decimal.text x).toList = (if p.negative then ['-'] else []) ++ c :: cs := by
    rw [Decimal.text, Decimal.textBy, hp, ← hlayout]
    exact String.toList_ofList
  have hread := Decimal.readFloat?_text hp
  have hstart : startsNumber c = true := by rw [startsNumber, hc, Bool.true_or]
  have hcontinues : ∀ d ∈ c :: cs, startsNumber d = true := by
    rintro d (_ | ⟨_, hd⟩)
    · exact hstart
    · rw [startsNumber, Bool.or_eq_true, beq_iff_eq]
      exact hcs d hd
  have htaken : ∀ d ∈ c :: cs, continuesNumber d = true := fun d hd =>
    continuesNumber_of_startsNumber (hcontinues d hd)
  have htail : ∀ d ∈ cs, continuesNumber d = true := fun d hd =>
    htaken d (List.mem_cons_of_mem c hd)
  have hclass : ∀ ds, (Decimal.text x).toList = ds → ∀ rest, Ends rest →
      classify ⟨.number, ds⟩ rest = .ok (.atom .number, some x) := by
    rintro ds rfl rest -
    simp only [classify, hread]
  by_cases hneg : p.negative
  · rw [if_pos hneg, List.singleton_append] at htext
    refine scans_of_munch htext ?_ (fun rest hends => ?_) (hclass _ htext)
    · rintro d (_ | ⟨_, hd⟩)
      · decide
      · exact isGraphic_of_startsNumber (hcontinues d hd)
    · rw [munch_signed (show nextIs startsNumber (c :: cs ++ rest) = true from hstart),
        takeWhile_append_of_nextIs htaken (hends.nextIs rfl),
        dropWhile_append_of_nextIs htaken (hends.nextIs rfl)]
  · rw [if_neg hneg, List.nil_append] at htext
    refine scans_of_munch htext (fun d hd => isGraphic_of_startsNumber (hcontinues d hd))
      (fun rest hends => ?_) (hclass _ htext)
    rw [munch_number hstart, takeWhile_append_of_nextIs htail (hends.nextIs rfl),
      dropWhile_append_of_nextIs htail (hends.nextIs rfl)]

/-- The text of an infinite double is a word that names no token, after a minus sign if the double
is negative. -/
theorem scan_text_infinite {x : Float} (hx : x.isInf = true) (offset : Nat) {rest : List Char}
    (hrest : Ends rest) :
    scan offset ((Decimal.text x).toList ++ rest) =
      .error ⟨.unknownWord, "inf", offset + if x < 0 then 1 else 0⟩ := by
  obtain ⟨hnan, hparts⟩ := Double.Parts.ofFloat?_of_isInf hx
  have hword : ∀ offset, scan offset ("inf".toList ++ rest) = .error ⟨.unknownWord, "inf", offset⟩ := by
    intro offset
    have hmunch : munch 'i' (['n', 'f'] ++ rest) = (⟨.word, ['i', 'n', 'f']⟩, rest) :=
      munch_word rfl (List.all_eq_true.1 rfl) (hrest.nextIs rfl)
    show scan offset ('i' :: (['n', 'f'] ++ rest)) = _
    rw [scan, if_pos (by decide), hmunch]
    rfl
  rw [Decimal.text, Decimal.textBy, hparts]
  simp only [hnan, Bool.false_eq_true, if_false]
  by_cases hneg : x < 0
  · rw [if_pos hneg, if_pos hneg]
    have hmunch : munch '-' ("inf".toList ++ rest) = (⟨.symbol, ['-']⟩, "inf".toList ++ rest) :=
      munch_minus rfl
    show scan offset ('-' :: ("inf".toList ++ rest)) = _
    rw [scan_cons (by decide) (by rw [hmunch]; rfl), hmunch, hword]
    rfl
  · rw [if_neg hneg, if_neg hneg]
    exact hword offset

/-! ## Literals of a text -/

theorem startsNumber_of_munch {c : Char} {cs : List Char} (h : (munch c cs).1.shape = .number) :
    startsNumber c = true ∨ c = '-' ∧ nextIs startsNumber cs = true := by
  unfold munch at h
  split at h
  · rename_i hstarts
    simpa using hstarts
  · split at h
    · cases h
    · split at h
      · cases h
      · split at h <;> cases h

theorem isNaN_of_readFloat? {c : Char} (hc : startsNumber c = true) {cs : List Char} {v : Float}
    (h : Decimal.readFloat? (c :: cs) = some v) : v.isNaN = false := by
  rw [startsNumber, Bool.or_eq_true, beq_iff_eq] at hc
  rw [Decimal.readFloat?_eq hc, Decimal.readMagnitude?_eq hc, Option.map_eq_some_iff] at h
  obtain ⟨d, -, rfl⟩ := h
  exact Decimal.isNaN_toFloatBounded d

theorem isNaN_of_classify {c : Char} {cs : List Char} {t : Token} {v : Float}
    (h : classify (munch c cs).1 (munch c cs).2 = .ok (t, some v)) : v.isNaN = false := by
  obtain ⟨hshape, hread⟩ := value_of_classify h
  rcases startsNumber_of_munch hshape with hc | ⟨rfl, hnext⟩
  · rw [munch_number hc] at hread
    exact isNaN_of_readFloat? hc hread
  · rw [munch_signed hnext] at hread
    match cs with
    | [] => cases hnext
    | d :: ds =>
      have hd : startsNumber d = true := hnext
      rw [List.takeWhile_cons_of_pos (continuesNumber_of_startsNumber hd), readFloat?_minus hd,
        Option.map_eq_some_iff] at hread
      obtain ⟨w, hw, rfl⟩ := hread
      exact Double.isNaN_neg (isNaN_of_readFloat? hd hw)

theorem isNaN_of_scan {offset : Nat} {cs : List Char} {text : TokenText}
    (h : scan offset cs = .ok text) : ∀ x ∈ text.literals, x.isNaN = false := by
  refine scan_induction (P := fun text => ∀ x ∈ text.literals, x.isNaN = false)
    (fun x hx => absurd hx List.not_mem_nil) (fun {c cs t value text} hclass ih => ?_) h
  intro x hx
  rcases List.mem_append.1 hx with hx | hx
  · obtain rfl := Option.mem_toList.1 hx
    exact isNaN_of_classify hclass
  · exact ih x hx

/-! ## Rows of words -/

/-- The words are taken apart one by one as the tokens and the literals of the text. -/
inductive Spelt : List String → TokenText → Prop where
  | nil : Spelt [] {}
  | cons {w : String} {t : Token} {value : Option Float} {ws : List String} {text : TokenText} :
      Scans w t value → Spelt ws text → Spelt (w :: ws) (TokenText.cons t value text)

def blanked : List String → String
  | [] => ""
  | w :: ws => w ++ (" " ++ blanked ws)

theorem Spelt.scan_intercalate {ws : List String} {text : TokenText} (h : Spelt ws text)
    (offset : Nat) : scan offset (" ".intercalate ws).toList = .ok text := by
  induction h generalizing offset with
  | nil => rw [String.intercalate_nil, String.toList_empty, scan]
  | @cons w t value ws text hw hws ih =>
    cases ws with
    | nil =>
      cases hws
      have hone := hw offset [] ends_nil
      rw [List.append_nil, scan] at hone
      rw [String.intercalate_singleton, hone]
      rfl
    | cons w' ws =>
      rw [String.intercalate_cons_cons, String.append_assoc, String.toList_append,
        String.toList_append]
      show scan offset (w.toList ++ ' ' :: (" ".intercalate (w' :: ws)).toList) = _
      rw [hw offset _ (ends_blank _), scan_skip (by decide), ih]
      rfl

theorem Spelt.scan_blanked {ws : List String} {text : TokenText} (h : Spelt ws text) (offset : Nat)
    (rest : List Char) :
    scan offset ((blanked ws).toList ++ rest) =
      (scan (offset + (blanked ws).utf8ByteSize) rest).map fun r =>
        ⟨text.tokens ++ r.tokens, text.literals ++ r.literals⟩ := by
  induction h generalizing offset with
  | nil =>
    show scan offset rest = (scan offset rest).map fun r => r
    cases scan offset rest <;> rfl
  | @cons w t value ws text hw hws ih =>
    have hblank : ' '.utf8Size = 1 := by decide
    have hsize : " ".utf8ByteSize = 1 := by decide
    rw [blanked, String.toList_append, String.toList_append, List.append_assoc]
    show scan offset (w.toList ++ ' ' :: ((blanked ws).toList ++ rest)) = _
    rw [hw offset _ (ends_blank _), scan_skip (by decide), ih, String.utf8ByteSize_append,
      String.utf8ByteSize_append, hblank, hsize, Nat.add_assoc, Nat.add_assoc]
    cases scan (offset + (w.utf8ByteSize + (1 + (blanked ws).utf8ByteSize))) rest with
    | error e => rfl
    | ok r => simp only [Except.map, TokenText.cons, List.cons_append, List.append_assoc]

end Lexer

namespace Program

open Lexer (Spelt blanked scans_spelling scans_text)

/-! ## The words of a program -/

theorem words_cons_of_ne {t : Token} (h : t ≠ .atom .number) (ts : List Token) (vs : List Float) :
    words (t :: ts) vs = t.spelling :: words ts vs := by
  rw [words]
  exact h

theorem words_append {ts : List Token} {vs : List Float} (h : ts.count (.atom .number) = vs.length)
    (us : List Token) (ws : List Float) :
    words (ts ++ us) (vs ++ ws) = words ts vs ++ words us ws := by
  induction ts generalizing vs with
  | nil =>
    obtain rfl := List.eq_nil_of_length_eq_zero h.symm
    rfl
  | cons t ts ih =>
    by_cases ht : t = .atom .number
    · subst ht
      rw [List.count_cons_self] at h
      obtain ⟨v, vs, rfl⟩ := List.exists_cons_of_length_eq_add_one h.symm
      exact congrArg (Decimal.text v :: ·) (ih (Nat.succ.inj h))
    · rw [List.count_cons_of_ne ht] at h
      rw [List.cons_append, words_cons_of_ne ht, words_cons_of_ne ht, ih h, List.cons_append]

theorem spelt_words {ts : List Token} {vs : List Float}
    (hspelling : ∀ t ∈ ts, t ≠ .atom .number → t.spelling ≠ "")
    (h : ts.count (.atom .number) = vs.length) (hfinite : ∀ v ∈ vs, v.isFinite = true) :
    Spelt (words ts vs) ⟨ts, vs⟩ := by
  induction ts generalizing vs with
  | nil =>
    obtain rfl := List.eq_nil_of_length_eq_zero h.symm
    exact .nil
  | cons t ts ih =>
    have hrest : ∀ t ∈ ts, t ≠ .atom .number → t.spelling ≠ "" := fun t ht =>
      hspelling t (List.mem_cons_of_mem _ ht)
    by_cases ht : t = .atom .number
    · subst ht
      rw [List.count_cons_self] at h
      obtain ⟨v, vs, rfl⟩ := List.exists_cons_of_length_eq_add_one h.symm
      exact .cons (scans_text (hfinite v List.mem_cons_self))
        (ih hrest (Nat.succ.inj h) fun v hv => hfinite v (List.mem_cons_of_mem _ hv))
    · rw [List.count_cons_of_ne ht] at h
      rw [words_cons_of_ne ht]
      exact .cons (scans_spelling t (hspelling t List.mem_cons_self ht)) (ih hrest h hfinite)

theorem intercalate_append_cons (ws : List String) (w : String) (us : List String) :
    " ".intercalate (ws ++ w :: us) = blanked ws ++ " ".intercalate (w :: us) := by
  induction ws with
  | nil => rw [List.nil_append, blanked, String.empty_append]
  | cons v ws ih =>
    obtain ⟨v', vs, hvs⟩ := List.exists_cons_of_ne_nil (List.append_ne_nil_of_right_ne_nil ws
      (List.cons_ne_nil w us))
    rw [List.cons_append, hvs, String.intercalate_cons_cons, ← hvs, ih, blanked]
    simp only [String.append_assoc]

theorem exists_append_of_count {a : Token} {ts : List Token} {n : Nat} (h : n < ts.count a) :
    ∃ us vs, ts = us ++ a :: vs ∧ us.count a = n := by
  induction ts generalizing n with
  | nil => exact absurd h (Nat.not_lt_zero n)
  | cons t ts ih =>
    by_cases ht : t = a
    · subst ht
      cases n with
      | zero => exact ⟨[], ts, rfl, rfl⟩
      | succ n =>
        rw [List.count_cons_self] at h
        obtain ⟨us, vs, rfl, hcount⟩ := ih (Nat.lt_of_succ_lt_succ h)
        exact ⟨t :: us, vs, rfl, by rw [List.count_cons_self, hcount]⟩
    · rw [List.count_cons_of_ne ht] at h
      obtain ⟨us, vs, rfl, hcount⟩ := ih h
      exact ⟨t :: us, vs, rfl, by rw [List.count_cons_of_ne ht, hcount]⟩

/-! ## Compiling the text of a program -/

theorem spelling_ne_of_mem_postOrder (e : Expression) :
    ∀ t ∈ e.postOrder, t ≠ .atom .number → t.spelling ≠ "" := by
  have hall : ∀ t ∈ Token.all, t.isExecutable = true → t ≠ .atom .number → t.spelling ≠ "" := by
    decide +kernel
  have hone : ∀ t : Token, t.isExecutable = true → t ≠ .atom .number → t.spelling ≠ "" := fun t =>
    hall t (Token.mem_all t)
  induction e with
  | leaf a =>
    rintro t (_ | ⟨_, ⟨⟩⟩)
    exact hone _ rfl
  | unary op e ih =>
    intro t ht
    rcases List.mem_append.1 ht with ht | ht
    · exact ih t ht
    · exact List.mem_singleton.1 ht ▸ hone _ rfl
  | binary op l r ihl ihr =>
    intro t ht
    rcases List.mem_append.1 ht with ht | ht
    · rcases List.mem_append.1 ht with ht | ht
      · exact ihl t ht
      · exact ihr t ht
    · exact List.mem_singleton.1 ht ▸ hone _ rfl

theorem WellFormed.spelling_ne {p : Program} (h : p.WellFormed) :
    ∀ t ∈ p.tokens, t ≠ .atom .number → t.spelling ≠ "" := by
  obtain ⟨e, he, -⟩ := h.exists_expression
  exact he ▸ spelling_ne_of_mem_postOrder e

theorem isFinite_or_isInf_of_compile {source : String} {p : Program}
    (h : compile source = .ok p) {x : Float} (hx : x ∈ p.literals) :
    x.isFinite = true ∨ x.isInf = true := by
  obtain ⟨t, htok, ⟨-, rfl⟩ | ⟨us, depth, harr, rfl⟩⟩ := exists_arrange_of_compile h
  · cases hx
  · exact Double.isFinite_or_isInf (Lexer.isNaN_of_scan htok x hx)

theorem WellFormed.compile_text_of_finite {p : Program} (h : p.WellFormed)
    (hfinite : ∀ x ∈ p.literals, x.isFinite = true) :
    compile p.text = .ok { p with source := p.text } := by
  have htok : tokenize p.text = .ok ⟨p.tokens, p.literals⟩ :=
    (spelt_words h.spelling_ne h.literals_length.symm hfinite).scan_intercalate 0
  rw [compile_of_tokenize htok h.tokens_ne_nil, arrange, h.checked]

/-- The text is not read beyond the first infinite literal. -/
theorem WellFormed.compile_text_of_infinite {p : Program} (h : p.WellFormed) {pre post : List Float}
    {x : Float} (hliterals : p.literals = pre ++ x :: post)
    (hfinite : ∀ y ∈ pre, y.isFinite = true) (hx : x.isInf = true) :
    ∃ ts us after, p.tokens = ts ++ .atom .number :: us ∧
      ts.count (.atom .number) = pre.length ∧
      p.text = blanked (words ts pre) ++ Decimal.text x ++ after ∧
      compile p.text = .error (.lexical ⟨.unknownWord, "inf",
        (blanked (words ts pre)).utf8ByteSize + if x < 0 then 1 else 0⟩) := by
  have hlt : pre.length < p.tokens.count (.atom .number) := by
    rw [← h.literals_length, hliterals, List.length_append]
    simp
  -- The tokens are cut where the literals are, and so is the text: the lexer gets as far as that.
  obtain ⟨ts, us, htokens, hcount⟩ := exists_append_of_count hlt
  have hspelling : ∀ t ∈ ts, t ≠ .atom .number → t.spelling ≠ "" := fun t ht =>
    h.spelling_ne t (by rw [htokens]; exact List.mem_append_left _ ht)
  have htext : p.text = blanked (words ts pre) ++
      " ".intercalate (Decimal.text x :: words us post) := by
    rw [text, htokens, hliterals, words_append hcount, ← intercalate_append_cons]
    rfl
  obtain ⟨after, hafter, hends⟩ : ∃ after : String,
      " ".intercalate (Decimal.text x :: words us post) = Decimal.text x ++ after ∧
        Lexer.Ends after.toList := by
    cases words us post with
    | nil => exact ⟨"", by rw [String.intercalate_singleton, String.append_empty], Lexer.ends_nil⟩
    | cons w ws =>
      refine ⟨" " ++ " ".intercalate (w :: ws), ?_, ?_⟩
      · rw [String.intercalate_cons_cons, String.append_assoc]
      · rw [String.toList_append]
        exact Lexer.ends_blank _
  rw [hafter, ← String.append_assoc] at htext
  refine ⟨ts, us, after, htokens, hcount, htext, ?_⟩
  have hscan : tokenize p.text = .error ⟨.unknownWord, "inf",
      (blanked (words ts pre)).utf8ByteSize + if x < 0 then 1 else 0⟩ := by
    rw [tokenize, htext, String.toList_append, String.toList_append, List.append_assoc,
      (spelt_words hspelling hcount hfinite).scan_blanked, Lexer.scan_text_infinite hx _ hends,
      Nat.zero_add]
    rfl
  rw [compile, hscan]

/-- **Printing a program and compiling its text gives the program again**, tokens, literals and
stack height, if its literals are finite. Otherwise compiling stops at the first of them that is
infinite. -/
theorem compile_text {source : String} {p : Program} (h : compile source = .ok p) :
    (∀ x ∈ p.literals, x.isFinite = true ∨ x.isInf = true) ∧
    ((∀ x ∈ p.literals, x.isFinite = true) → compile p.text = .ok { p with source := p.text }) ∧
    ∀ pre x post, p.literals = pre ++ x :: post → (∀ y ∈ pre, y.isFinite = true) →
      x.isInf = true →
      ∃ ts us after, p.tokens = ts ++ .atom .number :: us ∧
        ts.count (.atom .number) = pre.length ∧
        p.text = blanked (words ts pre) ++ Decimal.text x ++ after ∧
        compile p.text = .error (.lexical ⟨.unknownWord, "inf",
          (blanked (words ts pre)).utf8ByteSize + if x < 0 then 1 else 0⟩) := by
  refine ⟨fun x hx => isFinite_or_isInf_of_compile h hx, ?_⟩
  rcases wellFormed_of_compile h with rfl | hwf
  · refine ⟨fun _ => compile_empty, fun pre x post hliterals => ?_⟩
    exact absurd hliterals (by simp)
  · exact ⟨hwf.compile_text_of_finite, fun pre x post hliterals hfinite hx =>
      hwf.compile_text_of_infinite hliterals hfinite hx⟩

/-- A program whose literals are all finite, one of them negative zero, and one with an infinite
literal. -/
theorem compile_text_negative_zero_and_huge :
    (∃ p, compile "2- -0.0" = .ok p ∧ p.literals = [2, -0] ∧
      compile p.text = .ok { p with source := p.text }) ∧
    ∃ p, compile ("1+1" ++ String.ofList (List.replicate 309 '0')) = .ok p ∧
      ∃ before after, p.text = before ++ Decimal.text (1 / 0) ++ after ∧
        compile p.text = .error (.lexical ⟨.unknownWord, "inf",
          before.utf8ByteSize + if (1 / 0 : Float) < 0 then 1 else 0⟩) := by
  have hzero : compile "2- -0.0" = .ok {
      source := "2- -0.0"
      tokens := [.atom .number, .atom .number, .binary .subtract]
      literals := [2, -0]
      depth := 2 } := by decide +kernel
  have hhuge : compile ("1+1" ++ String.ofList (List.replicate 309 '0')) = .ok {
      source := "1+1" ++ String.ofList (List.replicate 309 '0')
      tokens := [.atom .number, .atom .number, .binary .add]
      literals := [1, 1 / 0]
      depth := 2 } := by
    have htok : tokenize ("1+1" ++ String.ofList (List.replicate 309 '0')) =
        .ok ⟨[.atom .number, .binary .add, .atom .number], [1, 1 / 0]⟩ := by
      have hscan : Lexer.scan 0 ('1' :: '+' :: '1' :: List.replicate 309 '0') =
          .ok ⟨[.atom .number, .binary .add, .atom .number], [1, 1 / 0]⟩ := by decide +kernel
      rw [tokenize, String.toList_append, String.toList_ofList, String.toList_ofList,
        List.cons_append, List.cons_append, List.singleton_append, hscan]
    rw [compile_of_tokenize htok (List.cons_ne_nil _ _)]
    rfl
  refine ⟨⟨_, hzero, rfl, (compile_text hzero).2.1 (by decide +kernel)⟩, _, hhuge, ?_⟩
  obtain ⟨ts, us, after, -, -, htext, herror⟩ := (compile_text hhuge).2.2 [1] (1 / 0) [] rfl
    (by decide +kernel) (by decide +kernel)
  exact ⟨_, after, htext, herror⟩

end Program

end Bytebeat
