import Bytebeat.Proofs.Separators
import Bytebeat.Token.Scanner

/-!
# The scanner stays between characters

`Scanner.Follows text s`: the scanner has come to `s` along the lexemes of
`text`, and what it has still to find is what the lexer makes of the rest. A turn
keeps this, and every stretch that it cuts out fits between characters of the
text (`Scanner.clean_turn`). Whatever the scanner is in, a turn that does not
stop leaves it with less to do (`Scanner.budget_of_turn`). So a run comes to its
end, with the answer of the lexer (`Scanner.run_within_characters`).
-/

namespace Bytebeat

/-! ## Cuts -/

section Cuts

variable {text : String} {done l rest : List Char} {s : Span}

theorem isValid_of_append (h : text.toList = done ++ rest) :
    String.Pos.Raw.IsValid text ⟨String.utf8Len done⟩ := by
  rw [String.Pos.Raw.isValid_iff_exists_append]
  refine ⟨String.ofList done, String.ofList rest, ?_, ?_⟩
  · rw [← String.ofList_append, ← h, String.ofList_toList]
  · rw [String.Pos.Raw.ext_iff, String.byteIdx_rawEndPos, String.utf8ByteSize_ofList]

theorem extract_of_append (h : text.toList = done ++ (l ++ rest)) :
    text.toByteArray.extract (String.utf8Len done) (String.utf8Len (done ++ l)) =
      (String.ofList l).toByteArray := by
  have hsize : ∀ cs : List Char, cs.utf8Encode.size = String.utf8Len cs := fun cs => by
    rw [← String.toByteArray_ofList, String.size_toByteArray, String.utf8ByteSize_ofList]
  have htext : text.toByteArray = (done ++ l).utf8Encode ++ rest.utf8Encode := by
    rw [← String.utf8Encode_toList, h, ← List.append_assoc, List.utf8Encode_append]
  rw [htext, ← hsize (done ++ l), ByteArray.extract_append_size_left, List.utf8Encode_append,
    String.toByteArray_ofList]
  exact ByteArray.extract_append_eq_right (hsize done).symm ByteArray.size_append

theorem Span.cut?_of_append (h : text.toList = done ++ (l ++ rest))
    (hstart : s.start = String.utf8Len done) (hstop : s.stop = String.utf8Len (done ++ l)) :
    s.Fits text ∧ s.cut? text = some (String.ofList l) := by
  obtain ⟨start, stop⟩ := s
  subst hstart hstop
  have hfits : Span.Fits text ⟨String.utf8Len done, String.utf8Len (done ++ l)⟩ :=
    ⟨by rw [String.utf8Len_append]; exact Nat.le_add_right _ _, isValid_of_append h,
      isValid_of_append (by rw [h, List.append_assoc])⟩
  refine ⟨hfits, ?_⟩
  rw [Span.cut?, dif_pos hfits, Option.some.injEq, ← String.toByteArray_inj,
    String.toByteArray_extract]
  exact extract_of_append h

example : Span.cut? "é-" ⟨1, 3⟩ = none ∧ Span.cut? "é-" ⟨2, 3⟩ = some "-" := by decide +kernel

end Cuts

namespace Cutting

variable {α β : Type} {text : String} {P : α → Prop} {Q : β → Prop}

/-- Every stretch that is asked for fits, and the answer is as `P` says. -/
structure Clean (text : String) (P : α → Prop) (x : Cutting α) : Prop where
  fits : ∀ s ∈ x.cuts, s.Fits text
  answers : ∃ a, x.answer = some a ∧ P a

theorem clean_pure {a : α} (h : P a) : Clean text P (pure a) := ⟨nofun, a, rfl, h⟩

theorem clean_cut {s : Span} {w : String} (hfits : s.Fits text) (hw : s.cut? text = some w) :
    Clean text (· = w) (cut text s) :=
  ⟨List.forall_mem_singleton.2 hfits, w, hw, rfl⟩

theorem bind_eq {x : Cutting α} {a : α} (h : x.answer = some a) (f : α → Cutting β) :
    x >>= f = ⟨x.cuts ++ (f a).cuts, (f a).answer⟩ := by
  simp only [Bind.bind, h]

theorem Clean.bind {x : Cutting α} {f : α → Cutting β} (hx : Clean text P x)
    (hf : ∀ a, x.answer = some a → P a → Clean text Q (f a)) : Clean text Q (x >>= f) := by
  obtain ⟨a, ha, hPa⟩ := hx.answers
  obtain ⟨hfits, hanswers⟩ := hf a ha hPa
  rw [bind_eq ha]
  exact ⟨List.forall_mem_append.2 ⟨hx.fits, hfits⟩, hanswers⟩

theorem exists_of_bind {x : Cutting α} {f : α → Cutting β} {b : β}
    (h : (x >>= f).answer = some b) : ∃ a, x.answer = some a ∧ (f a).answer = some b := by
  cases hx : x.answer with
  | none =>
    simp only [Bind.bind, hx] at h
    cases h
  | some a =>
    rw [bind_eq hx] at h
    exact ⟨a, rfl, h⟩

end Cutting

/-! ## Bytes at a place -/

section Bytes

open Lexer

variable {text : String} {done rest : List Char}

theorem isGraphic_ofUInt8 (b : UInt8) : isGraphic (Char.ofUInt8 b) = isGraphicByte b := by
  have hval : (Char.ofUInt8 b).val.toNat = b.toNat := UInt8.toNat_toUInt32 b
  rw [isGraphic, isGraphicByte, Bool.eq_iff_iff]
  simp only [Bool.and_eq_true, decide_eq_true_eq, Char.le_def, UInt32.le_iff_toNat_le, hval,
    UInt8.le_iff_toNat_le]
  rfl

theorem ofUInt8_toUInt8 {c : Char} (hc : isGraphic c = true) : Char.ofUInt8 c.toUInt8 = c := by
  rw [isGraphic, Bool.and_eq_true, decide_eq_true_eq, decide_eq_true_eq] at hc
  have hhigh : c.val.toNat ≤ 126 := hc.2
  rw [Char.ext_iff, ← UInt32.toNat_inj]
  show (c.val.toUInt8).toUInt32.toNat = _
  rw [UInt8.toNat_toUInt32, UInt32.toNat_toUInt8]
  omega

theorem drop_bytes (h : text.toList = done ++ rest) :
    (bytes text).drop (String.utf8Len done) = rest.flatMap String.utf8EncodeChar := by
  rw [bytes, toUTF8_toList, h, List.flatMap_append, List.drop_left' (length_utf8 done)]

theorem byteAt?_eq (text : String) (n : Nat) :
    byteAt? text n = ((bytes text).drop n).head?.map Char.ofUInt8 := by
  rw [byteAt?, List.head?_drop, bytes, Array.getElem?_toList]

/-- The byte after some characters is printable exactly if the next character is, and then is this
character. -/
theorem filter_byteAt? (h : text.toList = done ++ rest) :
    (byteAt? text (String.utf8Len done)).filter isGraphic = graphicHead rest := by
  have hcomp : isGraphic ∘ Char.ofUInt8 = isGraphicByte := funext isGraphic_ofUInt8
  rw [byteAt?_eq, drop_bytes h, Option.filter_map, hcomp, filter_head?_utf8, Option.map_map]
  cases hhead : graphicHead rest with
  | none => rfl
  | some c => exact congrArg some (ofUInt8_toUInt8 (mem_graphicHead_iff.1 hhead).1)

theorem any_byteAt? {p : Char → Bool} (hp : ∀ c, p c = true → isGraphic c = true)
    (h : text.toList = done ++ rest) :
    (byteAt? text (String.utf8Len done)).any p = nextIs p rest := by
  have hand : (fun c => isGraphic c && p c) = p := by
    funext c
    cases hc : p c with
    | true => rw [hp c hc]; rfl
    | false => exact Bool.and_false _
  rw [nextIs_eq_any hp, ← filter_byteAt? h, Option.any_filter, hand]

theorem lt_of_byteAt? {n : Nat} {c : Char} (h : byteAt? text n = some c) :
    n < text.utf8ByteSize := by
  obtain ⟨b, hb, -⟩ := Option.map_eq_some_iff.1 h
  exact (Array.getElem?_eq_some_iff.1 hb).1

end Bytes

/-! ## What the lexer makes of a lexeme -/

namespace Lexer

variable {text : String} {done rest : List Char}

theorem classify_byteAt? (h : text.toList = done ++ rest) (lexeme : Lexeme) :
    classify lexeme (byteAt? text (String.utf8Len done)).toList = classify lexeme rest := by
  have hhead : graphicHead (byteAt? text (String.utf8Len done)).toList = graphicHead rest := by
    rw [← filter_byteAt? h]
    cases byteAt? text (String.utf8Len done) <;> rfl
  have hnext : nextIs (· == '(') (byteAt? text (String.utf8Len done)).toList =
      nextIs (· == '(') rest := by
    rw [Bool.eq_iff_iff, nextIs_leftParen, nextIs_leftParen, hhead]
  simp only [classify, hnext]

/-- Printable characters are clipped to as many as there is room for. -/
theorem clip_eq_take {room : Nat} {cs : List Char} (h : ∀ c ∈ cs, isGraphic c = true) :
    LexError.clip room cs = cs.take room := by
  induction cs generalizing room with
  | nil => rw [LexError.clip, List.take_nil]
  | cons c cs ih =>
    rw [LexError.clip, utf8Size_of_isGraphic (h c List.mem_cons_self)]
    cases room with
    | zero => rfl
    | succ room =>
      rw [if_pos (Nat.succ_le_succ (Nat.zero_le room)), Nat.add_sub_cancel,
        ih fun d hd => h d (List.mem_cons_of_mem c hd), List.take_succ_cons]

end Lexer

/-! ## Less to do after each turn -/

namespace Scanner

open Lexer

variable {text : String} {s s' : Scanner}

/-- At least the number of turns before the last one: two for a byte, which is taken in by one and
may end a lexeme at another, and one to leave the lexeme. -/
def budget (text : String) (s : Scanner) : Nat :=
  2 * (text.utf8ByteSize - s.pos) + if s.state = .gap then 0 else 1

theorem budget_emit (t : Token) (value : Option Float) (s : Scanner) :
    (s.emit t value).budget text = 2 * (text.utf8ByteSize - s.pos) := rfl

theorem budget_takeIn {c : Char} (h : byteAt? text s.pos = some c) (state : ScanState) :
    (s.takeIn state).budget text < 2 * (text.utf8ByteSize - s.pos) := by
  have hlt := lt_of_byteAt? h
  have hpos : (s.takeIn state).pos = s.pos + 1 := rfl
  rw [budget, hpos]
  split <;> omega

theorem budget_takeIn_of_any {p : Char → Bool} (h : (byteAt? text s.pos).any p = true)
    (state : ScanState) : (s.takeIn state).budget text < 2 * (text.utf8ByteSize - s.pos) := by
  obtain ⟨c, hc, -⟩ := (Option.any_eq_true p _).1 h
  exact budget_takeIn hc state

theorem budget_of_close {shape : LexemeShape} {next : Option Char}
    (h : (s.close text shape next).answer = some (.next s')) :
    s'.budget text = 2 * (text.utf8ByteSize - s.pos) := by
  obtain ⟨spelling, -, h⟩ := Cutting.exists_of_bind h
  split at h
  · cases h
    exact budget_emit _ _ s
  · cases h

theorem budget_of_closeSymbol {next : Option Char}
    (h : (s.closeSymbol text next).answer = some (.next s')) :
    s'.budget text ≤ 2 * (text.utf8ByteSize - s.pos) := by
  unfold closeSymbol at h
  split at h
  · obtain ⟨pair, -, h⟩ := Cutting.exists_of_bind h
    split at h
    · cases h
      rw [budget_emit]
      exact Nat.mul_le_mul_left 2 (Nat.sub_le_sub_left (Nat.le_succ _) _)
    · exact Nat.le_of_eq (budget_of_close h)
  · exact Nat.le_of_eq (budget_of_close h)

theorem budget_of_turn_gap (hgap : s.state = .gap)
    (h : (s.turn text).answer = some (.next s')) :
    s'.budget text < 2 * (text.utf8ByteSize - s.pos) := by
  rw [turn, hgap] at h
  cases hnext : byteAt? text s.pos with
  | none =>
    simp only [hnext] at h
    cases h
  | some c =>
    simp only [hnext] at h
    cases h
    exact budget_takeIn (s := { s with start := s.pos }) hnext _

theorem budget_of_turn_lexeme (hgap : s.state ≠ .gap)
    (h : (s.turn text).answer = some (.next s')) :
    s'.budget text ≤ 2 * (text.utf8ByteSize - s.pos) := by
  unfold turn at h
  cases hstate : s.state with
  | gap => exact absurd hstate hgap
  | minus =>
    simp only [hstate] at h
    split at h
    · rename_i hnext
      cases h
      exact Nat.le_of_lt (budget_takeIn_of_any hnext _)
    · cases h
      exact Nat.le_of_eq (budget_emit _ _ s)
  | number | word =>
    simp only [hstate] at h
    split at h
    · rename_i hnext
      cases h
      exact Nat.le_of_lt (budget_takeIn_of_any hnext _)
    · exact Nat.le_of_eq (budget_of_close h)
  | symbol =>
    simp only [hstate] at h
    exact budget_of_closeSymbol h

/-- A turn takes in a byte or ends a lexeme. -/
theorem budget_of_turn (h : (s.turn text).answer = some (.next s')) :
    s'.budget text < s.budget text := by
  by_cases hgap : s.state = .gap
  · have hlt := budget_of_turn_gap hgap h
    rwa [budget.eq_def text s, if_pos hgap]
  · have hle := budget_of_turn_lexeme hgap h
    rw [budget.eq_def text s, if_neg hgap]
    exact Nat.lt_succ_of_le hle

/-! ## Along the lexemes -/

/-- What the scanner has read of the lexeme that it is in. -/
inductive Opened : ScanState → List Char → Prop where
  | minus : Opened .minus ['-']
  | number {sign : List Char} {c : Char} {cs : List Char} :
      sign = [] ∨ sign = ['-'] → startsNumber c = true → (∀ d ∈ cs, continuesNumber d = true) →
      Opened .number (sign ++ c :: cs)
  | word {c : Char} {cs : List Char} :
      c.isAlpha = true → (∀ d ∈ cs, d.isAlphanum = true) → Opened .word (c :: cs)
  | symbol {c : Char} : StartsSymbol c → c ≠ '-' → Opened .symbol [c]

/-- The scanner has come to the end of `l`, which begins where it takes the lexeme to begin. What it
has found before and what the lexer makes of the text from there on are all of the text. -/
structure Reads (text : String) (s : Scanner) (done l rest : List Char) : Prop where
  text_eq : text.toList = done ++ (l ++ rest)
  start_eq : s.start = String.utf8Len done
  pos_eq : s.pos = String.utf8Len (done ++ l)
  tokenize_eq : tokenize text = (scan s.start (l ++ rest)).map s.out.append

/-- Nothing has been read of a lexeme; before `rest` come only bytes that are not printable, of a
character that has been begun. -/
structure Passes (text : String) (s : Scanner) (done : List Char) (skipped : List UInt8)
    (rest : List Char) : Prop where
  text_eq : text.toList = done ++ rest
  skipped_dull : ∀ b ∈ skipped, isGraphicByte b = false
  pos_eq : s.pos + skipped.length = String.utf8Len done
  bytes_eq : (bytes text).drop s.pos = skipped ++ rest.flatMap String.utf8EncodeChar
  tokenize_eq : tokenize text = (scan (String.utf8Len done) rest).map s.out.append

/-- The scanner has come to where it is along the lexemes of the text. -/
inductive Follows (text : String) (s : Scanner) : Prop where
  | gap {done : List Char} {skipped : List UInt8} {rest : List Char} :
      s.state = .gap → Passes text s done skipped rest → Follows text s
  | lexeme {done l rest : List Char} :
      Opened s.state l → Reads text s done l rest → Follows text s

/-- The scanner follows the text or has stopped with the answer of the lexer. -/
def Turn.Follows (text : String) : Turn → Prop
  | .next s => s.Follows text
  | .stop result => result = tokenize text

variable {done l rest : List Char} {skipped : List UInt8} {shape : LexemeShape}

theorem Reads.takeIn {d : Char} (h : Reads text s done l (d :: rest)) (hd : isGraphic d = true)
    (state : ScanState) : Reads text (s.takeIn state) done (l ++ [d]) rest where
  text_eq := by rw [h.text_eq, List.append_assoc, List.singleton_append]
  start_eq := h.start_eq
  pos_eq := by
    show s.pos + 1 = _
    rw [h.pos_eq, ← List.append_assoc, String.utf8Len_append (done ++ l),
      utf8Len_eq_length (List.forall_mem_singleton.2 hd), List.length_singleton]
  tokenize_eq := by
    rw [h.tokenize_eq, List.append_assoc, List.singleton_append]
    rfl

theorem Reads.follows_takeIn {d : Char} {state : ScanState} (h : Reads text s done l (d :: rest))
    (hd : isGraphic d = true) (hopened : Opened state (l ++ [d])) :
    Follows text (s.takeIn state) :=
  .lexeme hopened (h.takeIn hd state)

theorem Reads.fits (h : Reads text s done l rest) :
    s.span.Fits text ∧ s.span.cut? text = some (String.ofList l) :=
  Span.cut?_of_append h.text_eq h.start_eq h.pos_eq

theorem Reads.text_eq_append (h : Reads text s done l rest) :
    text.toList = (done ++ l) ++ rest := by
  rw [h.text_eq, List.append_assoc]

theorem Reads.any_byteAt? {p : Char → Bool} (hp : ∀ c, p c = true → isGraphic c = true)
    (h : Reads text s done l rest) : (byteAt? text s.pos).any p = nextIs p rest := by
  rw [h.pos_eq, Bytebeat.any_byteAt? hp h.text_eq_append]

theorem exists_of_nextIs {p : Char → Bool} {cs : List Char} (h : nextIs p cs = true) :
    ∃ d ds, cs = d :: ds ∧ p d = true := by
  cases cs with
  | nil => cases h
  | cons d ds => exact ⟨d, ds, rfl, h⟩

theorem follows_emit (h : Reads text s done l rest) (hl : Munches shape l rest) {t : Token}
    {value : Option Float} (hclass : classify ⟨shape, l⟩ rest = .ok (t, value)) :
    Follows text (s.emit t value) := by
  have hpasses : Passes text (s.emit t value) (done ++ l) [] rest := by
    refine ⟨h.text_eq_append, nofun, h.pos_eq, ?_, ?_⟩
    · show (bytes text).drop s.pos = _
      rw [h.pos_eq, drop_bytes h.text_eq_append, List.nil_append]
    · rw [h.tokenize_eq, hl.scan_eq, hclass, h.start_eq, String.utf8Len_append,
        utf8Len_eq_length hl.isGraphic]
      cases scan (String.utf8Len done + l.length) rest with
      | error e => rfl
      | ok rest =>
        simp only [Except.map, TokenText.append, TokenText.cons, emit, List.append_assoc,
          List.singleton_append]
  exact .gap rfl hpasses

theorem clean_close (h : Reads text s done l rest) (hl : Munches shape l rest) :
    (s.close text shape (byteAt? text s.pos)).Clean text (Turn.Follows text) := by
  refine (Cutting.clean_cut h.fits.1 h.fits.2).bind ?_
  rintro _ - rfl
  rw [String.toList_ofList, h.pos_eq, classify_byteAt? h.text_eq_append]
  cases hclass : classify ⟨shape, l⟩ rest with
  | ok found => exact Cutting.clean_pure (follows_emit h hl hclass)
  | error fault =>
    refine Cutting.clean_pure ?_
    show _ = tokenize text
    rw [h.tokenize_eq, hl.scan_eq, hclass, clip_eq_take hl.isGraphic]
    rfl

/-- The first character of a symbol, and the one after it if both together are a token. -/
theorem clean_closeSymbol {c : Char} (h : Reads text s done [c] rest) (hc : StartsSymbol c)
    (hminus : c ≠ '-') :
    (s.closeSymbol text (byteAt? text s.pos)).Clean text (Turn.Follows text) := by
  rw [closeSymbol, h.any_byteAt? fun _ => id]
  split
  · rename_i hgraphic
    obtain ⟨d, ds, rfl, hd⟩ := exists_of_nextIs hgraphic
    -- `d` is one byte, so that the pair ends where a character does, whatever comes of it.
    have hpair : Reads text (s.takeIn .symbol) done [c, d] ds := h.takeIn hd .symbol
    refine (Cutting.clean_cut hpair.fits.1 hpair.fits.2).bind ?_
    rintro _ - rfl
    cases ht : Token.ofSpelling? (String.ofList [c, d]) with
    | some t =>
      have hspelling := Token.ofSpelling?_ofList_iff.1 ht
      exact Cutting.clean_pure (follows_emit hpair (.pair hc hminus hspelling)
        (classify_symbol_eq_ok_iff.2 ⟨hspelling, rfl⟩))
    | none =>
      refine clean_close h (.single hc hminus ?_)
      rintro d' ds' ⟨⟩ u hu
      rw [Token.ofSpelling?_ofList_iff.2 hu] at ht
      cases ht
  · rename_i hgraphic
    refine clean_close h (.single hc hminus ?_)
    rintro d ds rfl u hu
    exact hgraphic (Token.isGraphic_of_mem_spelling u d
      (hu ▸ List.mem_cons_of_mem c List.mem_cons_self))

/-! ## Turns and runs -/

theorem opened_of_isGraphic {c : Char} (hc : isGraphic c = true) :
    Opened (.opened c) [c] := by
  unfold ScanState.opened
  split
  · rename_i hminus
    rw [beq_iff_eq.1 hminus]
    exact .minus
  split
  · rename_i hnumber
    exact @Opened.number [] c [] (.inl rfl) hnumber nofun
  split
  · rename_i hword
    exact .word hword nofun
  · rename_i hminus hnumber hword
    exact .symbol ⟨hc, Bool.eq_false_iff.2 hnumber, Bool.eq_false_iff.2 hword⟩
      fun h => hminus (beq_iff_eq.2 h)

theorem opened_of_not_isGraphic {c : Char} (hc : isGraphic c = false) :
    ScanState.opened c = .gap := by
  have hminus : (c == '-') = false := beq_eq_false_iff_ne.2 fun h => by rw [h] at hc; cases hc
  have hnumber : startsNumber c = false := Bool.eq_false_iff.2 fun h => by
    rw [isGraphic_of_startsNumber h] at hc
    cases hc
  have hword : c.isAlpha = false := Bool.eq_false_iff.2 fun h => by
    rw [isGraphic_of_isAlphanum (Bool.or_eq_true_iff.2 (.inl h))] at hc
    cases hc
  simp [ScanState.opened, hminus, hnumber, hword, hc]

theorem clean_turn_skip {b : UInt8} (hgap : s.state = .gap)
    (h : Passes text s done (b :: skipped) rest) :
    (s.turn text).Clean text (Turn.Follows text) := by
  have hnext : byteAt? text s.pos = some (Char.ofUInt8 b) := by
    rw [byteAt?_eq, h.bytes_eq]
    rfl
  have hdull : isGraphic (Char.ofUInt8 b) = false := by
    rw [isGraphic_ofUInt8, h.skipped_dull b List.mem_cons_self]
  rw [turn, hgap]
  simp only [hnext, opened_of_not_isGraphic hdull]
  refine Cutting.clean_pure (.gap rfl
    ⟨h.text_eq, fun d hd => h.skipped_dull d (List.mem_cons_of_mem b hd), ?_, ?_, h.tokenize_eq⟩)
  · rw [← h.pos_eq, List.length_cons]
    show s.pos + 1 + skipped.length = _
    omega
  · show (bytes text).drop (s.pos + 1) = _
    rw [← List.tail_drop, h.bytes_eq, List.cons_append, List.tail_cons]

theorem utf8Len_snoc (cs : List Char) (c : Char) :
    String.utf8Len (cs ++ [c]) = String.utf8Len cs + c.utf8Size := by
  rw [String.utf8Len_append, String.utf8Len, String.utf8Len, Nat.zero_add]

/-- A character that is not printable is passed over byte by byte. -/
theorem Passes.skip {c : Char} (h : Passes text s done [] (c :: rest))
    (hc : isGraphic c = false) :
    Passes text s (done ++ [c]) (String.utf8EncodeChar c) rest where
  text_eq := by rw [h.text_eq, List.append_assoc, List.singleton_append]
  skipped_dull b hb := by
    have hfilter := filter_utf8EncodeChar c
    rw [hc, if_neg Bool.false_ne_true, List.filter_eq_nil_iff] at hfilter
    exact Bool.eq_false_iff.2 (hfilter b hb)
  pos_eq := by
    have hpos : s.pos = String.utf8Len done := h.pos_eq
    rw [hpos, String.length_utf8EncodeChar, utf8Len_snoc]
  bytes_eq := h.bytes_eq
  tokenize_eq := by
    rw [h.tokenize_eq, scan_skip hc, utf8Len_snoc]

theorem clean_turn_gap (hgap : s.state = .gap) (h : Passes text s done skipped rest) :
    (s.turn text).Clean text (Turn.Follows text) := by
  cases skipped with
  | cons b skipped => exact clean_turn_skip hgap h
  | nil =>
    have hpos : s.pos = String.utf8Len done := h.pos_eq
    cases rest with
    | nil =>
      have hnext : byteAt? text s.pos = none := by
        rw [byteAt?_eq, h.bytes_eq]
        rfl
      rw [turn, hgap]
      simp only [hnext]
      refine Cutting.clean_pure ?_
      show _ = tokenize text
      rw [h.tokenize_eq, scan]
      simp [Except.map, TokenText.append]
    | cons c rest =>
      cases hc : isGraphic c with
      | true =>
        have hfilter := filter_byteAt? h.text_eq
        have hnext : byteAt? text s.pos = some c := by
          rw [graphicHead, List.head?_cons, Option.filter_some, if_pos hc] at hfilter
          rw [hpos, Option.eq_some_of_filter_eq_some hfilter]
        have hreads : Reads text { s with start := s.pos } done [] (c :: rest) :=
          ⟨h.text_eq, hpos, by rw [List.append_nil]; exact hpos, hpos ▸ h.tokenize_eq⟩
        rw [turn, hgap]
        simp only [hnext]
        exact Cutting.clean_pure (hreads.follows_takeIn hc (opened_of_isGraphic hc))
      | false =>
        -- The character may have several bytes; the turn takes in the first.
        have hskip := h.skip hc
        obtain ⟨b, bs, hbs⟩ := List.exists_cons_of_ne_nil (String.utf8EncodeChar_ne_nil (c := c))
        rw [hbs] at hskip
        exact clean_turn_skip hgap hskip

/-- **A turn goes on along the text.** -/
theorem clean_turn (h : s.Follows text) : (s.turn text).Clean text (Turn.Follows text) := by
  cases h with
  | gap hgap h => exact clean_turn_gap hgap h
  | @lexeme done l rest hopened h =>
    rw [turn]
    generalize hstate : s.state = state at hopened
    cases hopened with
    | minus =>
      simp only [h.any_byteAt? fun _ => isGraphic_of_startsNumber]
      split
      · rename_i hnext
        obtain ⟨d, ds, rfl, hd⟩ := exists_of_nextIs hnext
        exact Cutting.clean_pure (h.follows_takeIn (isGraphic_of_startsNumber hd)
          (.number (.inr rfl) hd nofun))
      · rename_i hnext
        exact Cutting.clean_pure (follows_emit h (.minus (Bool.eq_false_iff.2 hnext)) rfl)
    | @number sign c cs hsign hc hcs =>
      simp only [h.any_byteAt? fun _ => isGraphic_of_continuesNumber]
      split
      · rename_i hnext
        obtain ⟨d, ds, rfl, hd⟩ := exists_of_nextIs hnext
        have hopened : Opened .number (sign ++ c :: (cs ++ [d])) :=
          .number hsign hc (List.forall_mem_append.2 ⟨hcs, List.forall_mem_singleton.2 hd⟩)
        rw [← List.cons_append, ← List.append_assoc] at hopened
        exact Cutting.clean_pure (h.follows_takeIn (isGraphic_of_continuesNumber hd) hopened)
      · rename_i hnext
        exact clean_close h (.number hsign hc hcs (Bool.eq_false_iff.2 hnext))
    | @word c cs hc hcs =>
      simp only [h.any_byteAt? fun _ => isGraphic_of_isAlphanum]
      split
      · rename_i hnext
        obtain ⟨d, ds, rfl, hd⟩ := exists_of_nextIs hnext
        exact Cutting.clean_pure (h.follows_takeIn (isGraphic_of_isAlphanum hd)
          (.word hc (List.forall_mem_append.2 ⟨hcs, List.forall_mem_singleton.2 hd⟩)))
      · rename_i hnext
        exact clean_close h (.word hc hcs (Bool.eq_false_iff.2 hnext))
    | symbol hc hminus => exact clean_closeSymbol h hc hminus

theorem follows_start (text : String) : Follows text {} := by
  have hpasses : Passes text {} [] [] text.toList := by
    refine ⟨rfl, nofun, rfl, @drop_bytes text [] text.toList rfl, ?_⟩
    show scan 0 text.toList = (scan 0 text.toList).map fun t => t
    cases scan 0 text.toList <;> rfl
  exact .gap rfl hpasses

/-- A run that is given the turns that are left stops with the answer of the lexer. -/
theorem clean_run {n : Nat} (h : s.Follows text) (hn : s.budget text < n) :
    (run text n s).Clean text (fun turn => turn = .stop (tokenize text)) := by
  -- On the turns allowed; each that is made costs the scanner some of its budget.
  induction n generalizing s with
  | zero => cases hn
  | succ n ih =>
    rw [run]
    refine (clean_turn h).bind fun turn hturn hfollows => ?_
    cases turn with
    | next s' =>
      have hless := budget_of_turn hturn
      exact ih hfollows (by omega)
    | stop result => exact Cutting.clean_pure (congrArg Turn.stop hfollows)

/-- **The scanner stops, and cuts a text only between its characters.** After twice as many turns as
the text has bytes, and one more, it has stopped with the answer of the lexer; each stretch that it
has cut out until then starts and ends within the text, between two characters. -/
theorem run_within_characters (text : String) :
    (run text (2 * text.utf8ByteSize + 1) {}).answer = some (.stop (tokenize text)) ∧
      ∀ s ∈ (run text (2 * text.utf8ByteSize + 1) {}).cuts,
        s.start ≤ s.stop ∧ s.stop ≤ text.utf8ByteSize ∧
          String.Pos.Raw.IsValid text ⟨s.start⟩ ∧ String.Pos.Raw.IsValid text ⟨s.stop⟩ := by
  obtain ⟨hfits, turn, hturn, rfl⟩ := clean_run (follows_start text) (Nat.lt_succ_self _)
  refine ⟨hturn, fun s hs => ?_⟩
  obtain ⟨hordered, hstart, hstop⟩ := hfits s hs
  exact ⟨hordered, hstop.le_utf8ByteSize, hstart, hstop⟩

/-- Accented letters touch a minus sign, a literal and the symbols; the first of these is tried with
the parenthesis after it. -/
theorem run_within_characters_accents :
    (run "é-é-1.5é*(é" 31 {}).answer =
        some (.stop (.ok ⟨[.binary .subtract, .atom .number, .binary .multiply, .leftParen],
          [-1.5]⟩)) ∧
      ⟨11, 13⟩ ∈ (run "é-é-1.5é*(é" 31 {}).cuts ∧ 11 ≤ 13 ∧ 13 ≤ "é-é-1.5é*(é".utf8ByteSize ∧
        String.Pos.Raw.IsValid "é-é-1.5é*(é" ⟨11⟩ ∧ String.Pos.Raw.IsValid "é-é-1.5é*(é" ⟨13⟩ := by
  have htokens : tokenize "é-é-1.5é*(é" =
      .ok ⟨[.binary .subtract, .atom .number, .binary .multiply, .leftParen], [-1.5]⟩ := by
    decide +kernel
  have hcut : ⟨11, 13⟩ ∈ (run "é-é-1.5é*(é" 31 {}).cuts := by decide +kernel
  obtain ⟨hanswer, hcuts⟩ := run_within_characters "é-é-1.5é*(é"
  rw [htokens] at hanswer
  exact ⟨hanswer, hcut, hcuts ⟨11, 13⟩ hcut⟩

end Scanner

end Bytebeat
