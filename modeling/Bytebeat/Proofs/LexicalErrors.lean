import Bytebeat.Proofs.LexicalGrammar

/-!
# Faulty lexemes

`IsFault fault l next`: the part `l` of a text is no lexeme for the reason
`fault`, where `next` is the printable character after it. What the lexer
reports is the first such part (`scan_eq_error_iff`): what stands before it is a
row of lexemes and separators, whatever comes after it (`Row`). So a report
depends on the bytes of the text up to the one after the part that it points at
(`tokenize_error`).
-/

namespace Bytebeat

namespace Lexer

def graphicHead (cs : List Char) : Option Char := cs.head?.filter isGraphic

/-- What is wrong with a part of a text that is no lexeme, where `next` is the printable character
right after it, if there is one. -/
inductive IsFault : LexFault → List Char → Option Char → Prop where
  /-- A word that names no token. -/
  | unknownWord {c : Char} {cs : List Char} {next : Option Char} :
      c.isAlpha = true → (∀ d ∈ cs, d.isAlphanum = true) → next.any Char.isAlphanum = false →
      (∀ t : Token, t.spelling.toList ≠ c :: cs) → IsFault .unknownWord (c :: cs) next
  /-- A named operator with an opening parenthesis right after it. -/
  | callSyntax {c : Char} {cs : List Char} {t : Token} :
      c.isAlpha = true → (∀ d ∈ cs, d.isAlphanum = true) → t.spelling.toList = c :: cs →
      t.arity = .unary → IsFault .callSyntax (c :: cs) (some '(')
  /-- A literal, with a minus sign or without, that is no decimal number. -/
  | malformedNumber {sign : List Char} {c : Char} {cs : List Char} {next : Option Char} :
      sign = [] ∨ sign = ['-'] → startsNumber c = true → (∀ d ∈ cs, continuesNumber d = true) →
      next.any continuesNumber = false → Decimal.readFloat? (sign ++ c :: cs) = none →
      IsFault .malformedNumber (sign ++ c :: cs) next
  /-- A character that names no token, neither alone nor with the one after it. -/
  | unknownSymbol {c : Char} {next : Option Char} :
      StartsSymbol c → (∀ t : Token, t.spelling.toList ≠ [c]) →
      (∀ d ∈ next, ∀ t : Token, t.spelling.toList ≠ [c, d]) → IsFault .unknownSymbol [c] next

variable {l : Part} {c : Char} {cs rest : List Char} {t : Token} {fault : LexFault}

theorem nextIs_eq_any {p : Char → Bool} (hp : ∀ c, p c = true → isGraphic c = true)
    (cs : List Char) : nextIs p cs = (graphicHead cs).any p := by
  cases cs with
  | nil => rfl
  | cons c cs =>
    cases hc : isGraphic c with
    | true => simp [nextIs, graphicHead, hc]
    | false =>
      have hpc : p c = false := Bool.eq_false_iff.2 fun h => by rw [hp c h] at hc; cases hc
      simp [nextIs, graphicHead, hc, hpc]

theorem nextIs_isAlphanum (cs : List Char) :
    nextIs Char.isAlphanum cs = (graphicHead cs).any Char.isAlphanum :=
  nextIs_eq_any (fun _ => isGraphic_of_isAlphanum) cs

theorem nextIs_continuesNumber (cs : List Char) :
    nextIs continuesNumber cs = (graphicHead cs).any continuesNumber :=
  nextIs_eq_any (fun _ => isGraphic_of_continuesNumber) cs

theorem nextIs_startsNumber (cs : List Char) :
    nextIs startsNumber cs = (graphicHead cs).any startsNumber :=
  nextIs_eq_any (fun _ => isGraphic_of_startsNumber) cs

theorem nextIs_leftParen (cs : List Char) :
    nextIs (· == '(') cs = true ↔ graphicHead cs = some '(' := by
  have hparen : ∀ d : Char, (d == '(') = true → isGraphic d = true := by
    intro d hd
    rw [beq_iff_eq.1 hd]
    decide
  rw [nextIs_eq_any hparen]
  cases graphicHead cs with
  | none => exact ⟨nofun, nofun⟩
  | some d => rw [Option.any_some, beq_iff_eq, Option.some.injEq]

theorem mem_graphicHead_iff {d : Char} :
    d ∈ graphicHead cs ↔ isGraphic d = true ∧ ∃ ds, cs = d :: ds := by
  cases cs with
  | nil => simp [graphicHead]
  | cons e ds =>
    simp only [graphicHead, List.head?_cons, Option.mem_def, Option.filter_eq_some_iff,
      Option.some.injEq, List.cons.injEq, exists_and_left, exists_eq', and_true]
    constructor
    · rintro ⟨rfl, he⟩; exact ⟨he, rfl⟩
    · rintro ⟨hd, rfl⟩; exact ⟨rfl, hd⟩

theorem mem_graphicHead_of_spelling {d : Char} {ds : List Char} (ht : t.spelling.toList = [c, d]) :
    d ∈ graphicHead (d :: ds) :=
  mem_graphicHead_iff.2 ⟨Token.isGraphic_of_mem_spelling t d
    (ht ▸ List.mem_cons_of_mem _ List.mem_cons_self), ds, rfl⟩

/-! ## Faults -/

theorem classify_word_eq_error_iff :
    classify ⟨.word, c :: cs⟩ rest = .error fault ↔
      (fault = .unknownWord ∧ ∀ t : Token, t.spelling.toList ≠ c :: cs) ∨
        fault = .callSyntax ∧ nextIs (· == '(') rest = true ∧
          ∃ t : Token, t.spelling.toList = c :: cs ∧ t.arity = .unary := by
  simp only [← Token.ofSpelling?_ofList_iff, classify, ne_eq]
  cases Token.ofSpelling? (String.ofList (c :: cs)) with
  | none =>
    constructor
    · rintro ⟨⟩
      exact .inl ⟨rfl, fun t ht => by cases ht⟩
    · rintro (⟨rfl, -⟩ | ⟨-, -, t, ht, -⟩)
      · rfl
      · cases ht
  | some u =>
    simp only [isCall_iff]
    constructor
    · intro h
      split at h
      · rename_i hcall
        cases h
        exact .inr ⟨rfl, hcall.2, u, rfl, hcall.1⟩
      · cases h
    · rintro (⟨-, hnone⟩ | ⟨rfl, hparen, t, ⟨⟩, harity⟩)
      · exact absurd rfl (hnone u)
      · rw [if_pos ⟨harity, hparen⟩]

theorem classify_number_eq_error_iff :
    classify ⟨.number, cs⟩ rest = .error fault ↔
      fault = .malformedNumber ∧ Decimal.readFloat? cs = none := by
  simp only [classify]
  cases Decimal.readFloat? cs with
  | none => simp [eq_comm]
  | some v => simp

theorem classify_symbol_eq_error_iff :
    classify ⟨.symbol, c :: cs⟩ rest = .error fault ↔
      fault = .unknownSymbol ∧ ∀ t : Token, t.spelling.toList ≠ c :: cs := by
  simp only [← Token.ofSpelling?_ofList_iff, classify, ne_eq]
  cases Token.ofSpelling? (String.ofList (c :: cs)) with
  | none => simp [eq_comm]
  | some u => simp

/-- The parts that are faulty are those that the lexer delimits and cannot classify. -/
theorem isFault_iff {l : List Char} :
    IsFault fault l (graphicHead rest) ↔
      ∃ shape, Munches shape l rest ∧ classify ⟨shape, l⟩ rest = .error fault := by
  constructor
  · generalize hnext : graphicHead rest = next
    intro h
    cases h with
    | unknownWord hc hcs hrest ht =>
      rw [← hnext, ← nextIs_isAlphanum] at hrest
      exact ⟨_, .word hc hcs hrest, classify_word_eq_error_iff.2 (.inl ⟨rfl, ht⟩)⟩
    | @callSyntax c cs t hc hcs ht harity =>
      have hrest : nextIs Char.isAlphanum rest = false := by rw [nextIs_isAlphanum, hnext]; rfl
      exact ⟨_, .word hc hcs hrest, classify_word_eq_error_iff.2
        (.inr ⟨rfl, (nextIs_leftParen rest).2 hnext, t, ht, harity⟩)⟩
    | malformedNumber hsign hc hcs hrest hread =>
      rw [← hnext, ← nextIs_continuesNumber] at hrest
      exact ⟨_, .number hsign hc hcs hrest, classify_number_eq_error_iff.2 ⟨rfl, hread⟩⟩
    | @unknownSymbol c _ hc ht hpair =>
      have hminus : c ≠ '-' := fun h => ht (.binary .subtract) (h ▸ rfl)
      subst hnext
      refine ⟨_, .single hc hminus ?_, classify_symbol_eq_error_iff.2 ⟨rfl, ht⟩⟩
      rintro d ds rfl u hu
      exact hpair d (mem_graphicHead_of_spelling hu) u hu
  · rintro ⟨shape, hmunches, hclass⟩
    cases hmunches with
    | number hsign hc hcs hrest =>
      obtain ⟨rfl, hread⟩ := classify_number_eq_error_iff.1 hclass
      rw [nextIs_continuesNumber] at hrest
      exact .malformedNumber hsign hc hcs hrest hread
    | word hc hcs hrest =>
      rw [nextIs_isAlphanum] at hrest
      rcases classify_word_eq_error_iff.1 hclass with ⟨rfl, ht⟩ | ⟨rfl, hparen, t, ht, harity⟩
      · exact .unknownWord hc hcs hrest ht
      · rw [(nextIs_leftParen rest).1 hparen]
        exact .callSyntax hc hcs ht harity
    | minus hrest => cases hclass
    | pair hc hminus ht => exact absurd ht ((classify_symbol_eq_error_iff.1 hclass).2 _)
    | single hc hminus hpair =>
      obtain ⟨rfl, ht⟩ := classify_symbol_eq_error_iff.1 hclass
      refine .unknownSymbol hc ht fun d hd => ?_
      obtain ⟨-, ds, rfl⟩ := mem_graphicHead_iff.1 hd
      exact hpair d ds rfl

theorem IsFault.unique {l : List Char} {fault' : LexFault} (h : IsFault fault l (graphicHead rest))
    (h' : IsFault fault' l (graphicHead rest)) : fault' = fault := by
  obtain ⟨shape, hmunches, hclass⟩ := isFault_iff.1 h
  obtain ⟨shape', hmunches', hclass'⟩ := isFault_iff.1 h'
  obtain ⟨c, cs, hl, -, hmunch⟩ := hmunches.munch_eq
  obtain ⟨c', cs', hl', -, hmunch'⟩ := hmunches'.munch_eq
  obtain ⟨rfl, rfl⟩ := List.cons.inj (hl.symm.trans hl')
  rw [hmunch, Prod.mk.injEq, Lexeme.mk.injEq] at hmunch'
  obtain ⟨⟨rfl, -⟩, -⟩ := hmunch'
  exact Except.error.inj (hclass'.symm.trans hclass)

theorem IsFault.isGraphic {l : List Char} (h : IsFault fault l (graphicHead rest)) :
    ∀ c ∈ l, isGraphic c = true := by
  obtain ⟨_, hmunches, -⟩ := isFault_iff.1 h
  exact hmunches.isGraphic

theorem IsFault.exists_cons {l : List Char} (h : IsFault fault l (graphicHead rest)) :
    ∃ c cs, l = c :: cs := by
  obtain ⟨_, hmunches, -⟩ := isFault_iff.1 h
  obtain ⟨c, cs, hl, -⟩ := hmunches.munch_eq
  exact ⟨c, cs, hl⟩

/-! ## Rows of lexemes before a text -/

/-- A row of lexemes, with separators before, between and after them, where `tail` comes after the
row. -/
inductive Row (tail : List Char) : List Char → List Part → Prop where
  | nil : Row tail [] []
  | separator {c : Char} {cs : List Char} {parts : List Part} :
      isGraphic c = false → Row tail cs parts → Row tail (c :: cs) parts
  | lexeme {l : Part} {cs : List Char} {parts : List Part} :
      IsLexeme l (cs ++ tail) → Row tail cs parts → Row tail (l.spelling ++ cs) (l :: parts)

variable {tail tail' : List Char} {parts : List Part}

theorem Row.splits (h : Row [] cs parts) : Splits cs parts := by
  induction h with
  | nil => exact .nil
  | separator hc _ ih => exact .separator hc ih
  | lexeme hl _ ih =>
    rw [List.append_nil] at hl
    exact .lexeme hl ih

/-- A lexeme stays one if what it must not be followed by does not come after it. -/
theorem IsLexeme.congr {rest' : List Char} (h : IsLexeme l rest)
    (hnext : ∀ d ∈ graphicHead rest', d ∈ graphicHead rest) : IsLexeme l rest' := by
  have hany : ∀ p : Char → Bool, (graphicHead rest).any p = false →
      (graphicHead rest').any p = false := by
    intro p hp
    rw [Option.any_eq_false] at hp ⊢
    exact fun d hd => hp d (hnext d hd)
  cases h with
  | word hc hcs hrest ht hcall =>
    rw [nextIs_isAlphanum] at hrest
    refine .word hc hcs ?_ ht fun hcall' => hcall ⟨hcall'.1, ?_⟩
    · rw [nextIs_isAlphanum]
      exact hany _ hrest
    · rw [nextIs_leftParen] at hcall' ⊢
      exact hnext _ hcall'.2
  | number hsign hc hcs hrest hv =>
    refine .number hsign hc hcs ?_ hv
    rw [nextIs_continuesNumber] at hrest ⊢
    exact hany _ hrest
  | minus hrest =>
    refine .minus ?_
    rw [nextIs_startsNumber] at hrest ⊢
    exact hany _ hrest
  | pair hc hminus ht => exact .pair hc hminus ht
  | single hc hminus ht hpair =>
    refine .single hc hminus ht ?_
    rintro d ds rfl u hu
    obtain ⟨-, ds', rfl⟩ := mem_graphicHead_iff.1 (hnext d (mem_graphicHead_of_spelling hu))
    exact hpair d ds' rfl u hu

theorem Row.congr (h : Row tail cs parts)
    (hnext : ∀ d ∈ graphicHead tail', d ∈ graphicHead tail) : Row tail' cs parts := by
  induction h with
  | nil => exact .nil
  | separator hc _ ih => exact .separator hc ih
  | @lexeme l cs parts hl _ ih =>
    refine .lexeme (hl.congr fun d hd => ?_) ih
    cases cs with
    | nil => exact hnext d hd
    | cons c cs => exact hd

theorem Row.scan_eq (h : Row tail cs parts) (offset : Nat) :
    scan offset (cs ++ tail) =
      (scan (offset + String.utf8Len cs) tail).map fun text =>
        ⟨(tokenText parts).tokens ++ text.tokens, (tokenText parts).literals ++ text.literals⟩ := by
  induction h generalizing offset with
  | nil =>
    show scan offset tail = (scan offset tail).map fun text => text
    cases scan offset tail <;> rfl
  | @separator c cs parts hc _ ih =>
    rw [List.cons_append, scan_skip hc, ih, String.utf8Len, Nat.add_assoc, Nat.add_comm c.utf8Size]
  | @lexeme l cs parts hl _ ih =>
    obtain ⟨c, ds, shape, hspelling, hmunch, hclass⟩ := hl.munch_eq
    have hlength := utf8Len_eq_length hl.isGraphic
    have hc : Lexer.isGraphic c = true := hl.isGraphic c (hspelling ▸ List.mem_cons_self)
    rw [tokenText_cons, String.utf8Len_append, hlength]
    rw [hspelling, List.append_assoc, List.cons_append,
      scan_cons hc (by rw [hmunch]; exact hclass), hmunch, ih, Nat.add_assoc]
    cases scan (offset + ((c :: ds).length + String.utf8Len cs)) tail with
    | error e => rfl
    | ok text => simp only [Except.map, TokenText.cons, List.cons_append, List.append_assoc]

theorem IsFault.scan_eq {bad : List Char} (h : IsFault fault bad (graphicHead rest))
    (offset : Nat) :
    scan offset (bad ++ rest) =
      .error ⟨fault, String.ofList (bad.take LexError.spellingLimit), offset⟩ := by
  obtain ⟨shape, hmunches, hclass⟩ := isFault_iff.1 h
  rw [hmunches.scan_eq, hclass]

/-- **What the lexer reports** is the first part of the text that is faulty. -/
theorem scan_eq_error_iff {offset : Nat} {e : LexError} :
    scan offset cs = .error e ↔
      ∃ done parts bad rest, cs = done ++ (bad ++ rest) ∧ Row (bad ++ rest) done parts ∧
        IsFault e.fault bad (graphicHead rest) ∧
        e.spelling = String.ofList (bad.take LexError.spellingLimit) ∧
        e.offset = offset + String.utf8Len done := by
  constructor
  · intro h
    fun_induction scan offset cs with
    | case1 => cases h
    | case2 offset c cs hc m fault hclass =>
      cases h
      refine ⟨[], [], m.1.spelling, m.2, (munch_append c cs).symm, .nil, ?_, rfl, rfl⟩
      exact isFault_iff.2 ⟨_, munches hc cs, hclass⟩
    | case3 offset c cs hc m t value hclass =>
      rename_i ih
      cases hrest : scan (offset + m.1.spelling.length) m.2 with
      | ok text => rw [hrest] at h; cases h
      | error e =>
        rw [hrest] at h
        cases h
        obtain ⟨done, parts, bad, rest, hm, hrow, hfault, hspelling, hoffset⟩ := ih hrest
        have hl : IsLexeme ⟨m.1.spelling, t, value⟩ (done ++ (bad ++ rest)) :=
          hm ▸ isLexeme_of_classify hc hclass
        refine ⟨m.1.spelling ++ done, ⟨m.1.spelling, t, value⟩ :: parts, bad, rest, ?_,
          .lexeme hl hrow, hfault, hspelling, ?_⟩
        · rw [List.append_assoc, ← hm]
          exact (munch_append c cs).symm
        · rw [hoffset, String.utf8Len_append, utf8Len_eq_length hl.isGraphic, Nat.add_assoc]
    | case4 offset c cs hc ih =>
      obtain ⟨done, parts, bad, rest, rfl, hrow, hfault, hspelling, hoffset⟩ := ih h
      refine ⟨c :: done, parts, bad, rest, rfl, .separator (Bool.eq_false_iff.2 hc) hrow, hfault,
        hspelling, ?_⟩
      rw [hoffset, String.utf8Len, Nat.add_assoc, Nat.add_comm c.utf8Size]
  · obtain ⟨fault, spelling, reported⟩ := e
    rintro ⟨done, parts, bad, rest, rfl, hrow, hfault, rfl, rfl⟩
    rw [hrow.scan_eq, hfault.scan_eq]
    rfl

/-! ## Bytes up to the one after a part -/

def bytes (text : String) : List UInt8 := text.toUTF8.data.toList

theorem bytes_ofList (cs : List Char) :
    bytes (String.ofList cs) = cs.flatMap String.utf8EncodeChar := by
  rw [bytes, toUTF8_toList, String.toList_ofList]

theorem length_utf8 (cs : List Char) :
    (cs.flatMap String.utf8EncodeChar).length = String.utf8Len cs := by
  induction cs with
  | nil => rfl
  | cons c cs ih =>
    rw [List.flatMap_cons, List.length_append, ih, String.length_utf8EncodeChar, String.utf8Len,
      Nat.add_comm]

theorem utf8EncodeChar_append_inj {c d : Char} {bs bs' : List UInt8}
    (h : String.utf8EncodeChar c ++ bs = String.utf8EncodeChar d ++ bs') : c = d ∧ bs = bs' := by
  have hfirst := congrArg (fun bytes => bytes.toByteArray.utf8DecodeChar? 0) h
  simp only [List.toByteArray_append, ByteArray.utf8DecodeChar?_utf8EncodeChar_append,
    Option.some.injEq] at hfirst
  subst hfirst
  exact ⟨rfl, List.append_cancel_left h⟩

/-- Characters are told by their bytes, whatever bytes come after them. -/
theorem exists_append_of_utf8 {ds : List Char} {bs : List UInt8}
    (h : ds.flatMap String.utf8EncodeChar = cs.flatMap String.utf8EncodeChar ++ bs) :
    ∃ es, ds = cs ++ es ∧ es.flatMap String.utf8EncodeChar = bs := by
  induction cs generalizing ds with
  | nil => exact ⟨ds, rfl, h⟩
  | cons c cs ih =>
    rw [List.flatMap_cons, List.append_assoc] at h
    cases ds with
    | nil => exact absurd (List.append_eq_nil_iff.1 h.symm).1 String.utf8EncodeChar_ne_nil
    | cons d ds =>
      rw [List.flatMap_cons] at h
      obtain ⟨rfl, hrest⟩ := utf8EncodeChar_append_inj h
      obtain ⟨es, rfl, hes⟩ := ih hrest
      exact ⟨es, rfl, hes⟩

theorem utf8EncodeChar_of_isGraphic (hc : isGraphic c = true) :
    String.utf8EncodeChar c = [c.toUInt8] := by
  have hfilter := filter_utf8EncodeChar c
  rw [if_pos hc] at hfilter
  rw [← hfilter, eq_comm]
  refine List.filter_sublist.eq_of_length ?_
  rw [hfilter, String.length_utf8EncodeChar, utf8Size_of_isGraphic hc, List.length_singleton]

theorem utf8_of_isGraphic (h : ∀ c ∈ cs, isGraphic c = true) :
    cs.flatMap String.utf8EncodeChar = cs.map Char.toUInt8 := by
  rw [List.map_eq_flatMap]
  exact List.flatMap_congr fun c hc => utf8EncodeChar_of_isGraphic (h c hc)

theorem filter_head?_utf8 (cs : List Char) :
    (cs.flatMap String.utf8EncodeChar).head?.filter isGraphicByte =
      (graphicHead cs).map Char.toUInt8 := by
  cases cs with
  | nil => rfl
  | cons c cs =>
    have hfilter := filter_utf8EncodeChar c
    rw [List.flatMap_cons, graphicHead, List.head?_cons]
    cases hc : isGraphic c with
    | true =>
      rw [hc, utf8EncodeChar_of_isGraphic hc] at hfilter
      have hbyte : isGraphicByte c.toUInt8 = true :=
        List.filter_eq_self.1 hfilter _ List.mem_cons_self
      simp [utf8EncodeChar_of_isGraphic hc, Option.filter, hc, hbyte]
    | false =>
      obtain ⟨b, bs, hbs⟩ := List.exists_cons_of_ne_nil (String.utf8EncodeChar_ne_nil (c := c))
      rw [hc, hbs] at hfilter
      have hbyte : ¬isGraphicByte b = true := List.filter_eq_nil_iff.1 hfilter b List.mem_cons_self
      simp [hbs, Option.filter, hc, hbyte]

theorem toUInt8_inj {d : Char} (hc : isGraphic c = true) (hd : isGraphic d = true)
    (h : c.toUInt8 = d.toUInt8) : c = d := by
  have hbytes : String.utf8EncodeChar c ++ [] = String.utf8EncodeChar d ++ [] := by
    rw [utf8EncodeChar_of_isGraphic hc, utf8EncodeChar_of_isGraphic hd, h]
  exact (utf8EncodeChar_append_inj hbytes).1

theorem graphicHead_eq_of_utf8 {ds : List Char}
    (h : (ds.flatMap String.utf8EncodeChar).head?.filter isGraphicByte =
      (cs.flatMap String.utf8EncodeChar).head?.filter isGraphicByte) :
    graphicHead ds = graphicHead cs := by
  rw [filter_head?_utf8, filter_head?_utf8] at h
  cases hd : graphicHead ds with
  | none =>
    rw [hd, Option.map_none, eq_comm, Option.map_eq_none_iff] at h
    exact h.symm
  | some d =>
    rw [hd, Option.map_some, eq_comm, Option.map_eq_some_iff] at h
    obtain ⟨c, hc, hbyte⟩ := h
    rw [hc, toUInt8_inj (mem_graphicHead_iff.1 hc).1 (mem_graphicHead_iff.1 hd).1 hbyte]

theorem exists_append_of_take {text other : String} {done bad : List Char} {n : Nat}
    (htext : text.toList = done ++ (bad ++ rest)) (hn : n = String.utf8Len (done ++ bad))
    (hbytes : (bytes other).take n = (bytes text).take n)
    (hnext : (bytes other)[n]?.filter isGraphicByte = (bytes text)[n]?.filter isGraphicByte) :
    ∃ rest', other.toList = done ++ (bad ++ rest') ∧ graphicHead rest' = graphicHead rest := by
  have hlength : ((done ++ bad).flatMap String.utf8EncodeChar).length = n :=
    hn ▸ length_utf8 (done ++ bad)
  have hsplit : bytes text =
      (done ++ bad).flatMap String.utf8EncodeChar ++ rest.flatMap String.utf8EncodeChar := by
    rw [bytes, toUTF8_toList, htext, ← List.append_assoc, List.flatMap_append]
  have htake : (bytes text).take n = (done ++ bad).flatMap String.utf8EncodeChar := by
    rw [hsplit, List.take_left' hlength]
  have hdrop : (bytes text).drop n = rest.flatMap String.utf8EncodeChar := by
    rw [hsplit, List.drop_left' hlength]
  have hother : other.toList.flatMap String.utf8EncodeChar =
      (done ++ bad).flatMap String.utf8EncodeChar ++ (bytes other).drop n := by
    rw [← htake, ← hbytes, List.take_append_drop, bytes, toUTF8_toList]
  obtain ⟨rest', hrest', hdrop'⟩ := exists_append_of_utf8 hother
  refine ⟨rest', by rw [hrest', List.append_assoc], graphicHead_eq_of_utf8 ?_⟩
  rw [hdrop', ← hdrop, List.head?_drop, List.head?_drop, hnext]

end Lexer

/-- **An error of the lexer points at the first part of the text that is no lexeme.** The text
before the part is taken apart, the spelling that is reported is the start of the part, and what is
wrong with it is told by the part and the printable character right after it. Any text that is the
same up to the end of the part, with the same printable byte after it or none, fails with the same
error. -/
theorem tokenize_error {text : String} {e : LexError} (h : tokenize text = .error e) :
    ∃ done bad rest : String, text = done ++ bad ++ rest ∧ (∃ t, tokenize done = .ok t) ∧
      e.offset = done.utf8ByteSize ∧
      Lexer.bytes e.spelling = (Lexer.bytes bad).take 16 ∧
      (∀ fault, Lexer.IsFault fault bad.toList (Lexer.graphicHead rest.toList) ↔
        fault = e.fault) ∧
      ∀ (other : String) (n : Nat), n = e.offset + bad.utf8ByteSize →
        (Lexer.bytes other).take n = (Lexer.bytes text).take n →
        (Lexer.bytes other)[n]?.filter Lexer.isGraphicByte =
          (Lexer.bytes text)[n]?.filter Lexer.isGraphicByte →
        tokenize other = .error e := by
  obtain ⟨done, parts, bad, rest, htext, hrow, hfault, hspelling, hoffset⟩ :=
    Lexer.scan_eq_error_iff.1 h
  rw [Nat.zero_add] at hoffset
  refine ⟨String.ofList done, String.ofList bad, String.ofList rest, ?_, ?_, ?_, ?_, ?_, ?_⟩
  · rw [← String.ofList_append, ← String.ofList_append, List.append_assoc, ← htext,
      String.ofList_toList]
  · have hdone : Lexer.Row [] done parts := hrow.congr nofun
    exact ⟨_, by rw [tokenize, String.toList_ofList, hdone.splits.scan_eq]⟩
  · rw [hoffset, String.utf8ByteSize_ofList]
  · have htake : ∀ c ∈ bad.take LexError.spellingLimit, Lexer.isGraphic c = true := fun c hc =>
      hfault.isGraphic c (List.mem_of_mem_take hc)
    rw [hspelling, Lexer.bytes_ofList, Lexer.bytes_ofList, Lexer.utf8_of_isGraphic htake,
      Lexer.utf8_of_isGraphic hfault.isGraphic, List.map_take]
    rfl
  · rw [String.toList_ofList, String.toList_ofList]
    exact fun fault => ⟨hfault.unique, fun h => h ▸ hfault⟩
  · rintro other n rfl hbytes hnext
    rw [hoffset, String.utf8ByteSize_ofList, ← String.utf8Len_append] at hbytes hnext
    obtain ⟨rest', hother, hhead⟩ := Lexer.exists_append_of_take htext rfl hbytes hnext
    obtain ⟨c, cs, rfl⟩ := hfault.exists_cons
    exact Lexer.scan_eq_error_iff.2 ⟨done, parts, c :: cs, rest', hother, hrow.congr fun _ hd => hd,
      hhead ▸ hfault, hspelling, by rw [hoffset, Nat.zero_add]⟩

theorem tokenize_error_call :
    tokenize "é+ sin(a)" = .error ⟨.callSyntax, "sin", 4⟩ ∧
      ∃ done bad rest : String, "é+ sin(a)" = done ++ bad ++ rest ∧
        (∃ t, tokenize done = .ok t) ∧ 4 = done.utf8ByteSize ∧
        Lexer.bytes "sin" = (Lexer.bytes bad).take 16 ∧
        (∀ fault, Lexer.IsFault fault bad.toList (Lexer.graphicHead rest.toList) ↔
          fault = .callSyntax) ∧
        ∀ (other : String) (n : Nat), n = 4 + bad.utf8ByteSize →
          (Lexer.bytes other).take n = (Lexer.bytes "é+ sin(a)").take n →
          (Lexer.bytes other)[n]?.filter Lexer.isGraphicByte =
            (Lexer.bytes "é+ sin(a)")[n]?.filter Lexer.isGraphicByte →
          tokenize other = .error ⟨.callSyntax, "sin", 4⟩ := by
  have h : tokenize "é+ sin(a)" = .error ⟨.callSyntax, "sin", 4⟩ := by decide +kernel
  exact ⟨h, tokenize_error h⟩

end Bytebeat
