import Bytebeat.Program
import Bytebeat.Proofs.Conversion
import Bytebeat.Proofs.Expression
import Bytebeat.Proofs.Lexing

/-!
# Compiled programs

What every compiled program has, whatever the notation of its text: its tokens
pass the check of postfix order, at the height that the program records, and
it has a literal for each `number` token (`Program.WellFormed`). The lexer puts
a literal aside for each `number` token it makes (`literals_length_of_scan`),
and the conversion from infix order loses no operand and makes none. Hence a
compiled program is empty or well-formed (`Program.wellFormed_of_compile`).
-/

namespace Bytebeat

namespace Program

/-! ## What compiling ensures -/

/-- Tokens in postfix order at the depth recorded, with a literal for each `number` token. -/
structure WellFormed (p : Program) : Prop where
  checked : postfixDepth p.tokens = .ok p.depth
  literals_length : p.literals.length = p.tokens.count (.atom .number)

theorem WellFormed.exists_expression {p : Program} (h : p.WellFormed) :
    ∃ e : Expression, e.postOrder = p.tokens ∧ e.need = p.depth ∧ p.depth ≤ maxStackDepth :=
  exists_expression_of_postfixDepth h.checked

theorem WellFormed.depth_le {p : Program} (h : p.WellFormed) : p.depth ≤ maxStackDepth := by
  obtain ⟨-, -, -, hle⟩ := h.exists_expression
  exact hle

theorem WellFormed.depth_pos {p : Program} (h : p.WellFormed) : 0 < p.depth := by
  obtain ⟨e, -, hneed, -⟩ := h.exists_expression
  exact hneed ▸ e.need_pos

theorem WellFormed.tokens_ne_nil {p : Program} (h : p.WellFormed) : p.tokens ≠ [] := by
  intro hnil
  have hc := h.checked
  rw [hnil] at hc
  cases hc

/-- What is arranged is postfix, either as written or once converted. -/
theorem convert_of_arrange {ts us : List Token} {depth : Nat} (h : arrange ts = .ok (us, depth)) :
    postfixDepth us = .ok depth ∧ (us = ts ∨ postfixOfInfix ts = .ok us) := by
  unfold arrange at h
  split at h
  · rename_i hts
    cases h
    exact ⟨hts, .inl rfl⟩
  · split at h
    · cases h
    · rename_i converted hconv
      cases hd : postfixDepth converted with
      | error e => simp [hd, Except.map] at h
      | ok d =>
        rw [hd] at h
        cases h
        exact ⟨hd, .inr hconv⟩

theorem operands_of_arrange {ts us : List Token} {depth : Nat} (h : arrange ts = .ok (us, depth)) :
    operands us = operands ts := by
  rcases (convert_of_arrange h).2 with rfl | hconv
  · rfl
  · exact operands_of_postfixOfInfix hconv

theorem exists_arrange_of_compile {source : String} {p : Program} (h : compile source = .ok p) :
    ∃ t, tokenize source = .ok t ∧
      (t.tokens = [] ∧ p = { source } ∨
        ∃ us depth, arrange t.tokens = .ok (us, depth) ∧
          p = { source, tokens := us, literals := t.literals, depth }) := by
  unfold compile at h
  split at h
  · cases h
  · rename_i t htok
    refine ⟨t, htok, ?_⟩
    split at h
    · rename_i hempty
      cases h
      exact .inl ⟨List.isEmpty_iff.1 hempty, rfl⟩
    · split at h
      · cases h
      · rename_i us depth harr
        cases h
        exact .inr ⟨us, depth, harr, rfl⟩

theorem compile_of_tokenize {source : String} {t : TokenText} (ht : tokenize source = .ok t)
    (hne : t.tokens ≠ []) :
    compile source =
      match arrange t.tokens with
      | .error e => .error (.grammatical e)
      | .ok (tokens, depth) => .ok { source, tokens, literals := t.literals, depth } := by
  have hempty : t.tokens.isEmpty = false := List.isEmpty_eq_false_iff.2 hne
  cases harr : arrange t.tokens <;>
    simp only [compile, ht, hempty, harr, Bool.false_eq_true, if_false]

theorem wellFormed_of_compile {source : String} {p : Program} (h : compile source = .ok p) :
    p = { source } ∨ p.WellFormed := by
  obtain ⟨t, htok, ⟨-, rfl⟩ | ⟨us, depth, harr, rfl⟩⟩ := exists_arrange_of_compile h
  · exact .inl rfl
  · refine .inr ⟨(convert_of_arrange harr).1, ?_⟩
    rw [Lexer.literals_length_of_scan htok, ← count_operands, ← count_operands,
      operands_of_arrange harr]

end Program

end Bytebeat
