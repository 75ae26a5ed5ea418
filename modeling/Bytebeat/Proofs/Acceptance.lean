import Bytebeat.Proofs.Compiled
import Bytebeat.Proofs.Release

/-!
# Which texts are accepted

A text that compiles is postfix, or infix, or a mixture of the two
(`Program.accepted_of_compile`). In a mixture as many operands stand right after
another as are missing elsewhere, and each operator still finds its operands
where it is released (`Infix.Mixture`); a mixture compiles unless it is too deep
(`Program.exists_compile_of_mixture`). So a text with faults of one kind alone
is refused, and one whose operators come too early is; but `+ a b` is not
(`Program.accepted_prefix_order`).
-/

namespace Bytebeat

/-- In the order in which they are released the tokens are the tree `e`, though operands are missing
in some places and stand right after another in as many. -/
structure Infix.Mixture (ts : List Token) (e : Expression) : Prop where
  balanced : Balanced ts
  juxtaposed : 0 < juxtapositions true ts
  gaps_eq : gaps true ts = juxtapositions true ts
  released : Released (fun _ => True) (readings true ts) e.postOrder

namespace Program

open Infix (Derives Mixture gaps juxtapositions)

/-- **What compiles is an expression in one of the notations, or a mixture of them that is released
as one.** -/
theorem accepted_of_compile {source : String} {p : Program} (h : compile source = .ok p)
    (hne : p.tokens ≠ []) :
    ∃ t e, tokenize source = .ok t ∧ p.tokens = Expression.postOrder e ∧
      (t.tokens = e.postOrder ∨ Derives t.tokens ∨ Mixture t.tokens e) := by
  obtain ⟨t, ht, ⟨-, rfl⟩ | ⟨us, depth, harr, rfl⟩⟩ := exists_arrange_of_compile h
  · exact absurd rfl hne
  obtain ⟨hchecked, hconv⟩ := convert_of_arrange harr
  obtain ⟨e, rfl, -⟩ := exists_expression_of_postfixDepth hchecked
  refine ⟨t, e, ht, rfl, ?_⟩
  rcases hconv with hsame | hconv
  · exact .inl hsame.symm
  have hbalanced := balanced_of_postfixOfInfix hconv
  have hvalid := invalid_not_mem_of_postfixOfInfix hconv
  have hfaults := Infix.gaps_eq_juxtapositions hconv
  rcases Nat.eq_zero_or_pos (juxtapositions true t.tokens) with hj | hj
  · exact .inr (.inl (Infix.derives_iff.2 ⟨hbalanced, hvalid, hj, hfaults.trans hj⟩))
  · exact .inr (.inr ⟨hbalanced, hj, hfaults, postfixOfInfix_eq_ok_iff.1 hconv⟩)

/-- In `2*(a b +)` the second operand of the sum stands right after the first, and one is missing
before the closing parenthesis. -/
theorem accepted_of_compile_mixture :
    ∃ p t e, compile "2*(a b +)" = .ok p ∧ p.tokens ≠ [] ∧ tokenize "2*(a b +)" = .ok t ∧
      p.tokens = Expression.postOrder e ∧
      (t.tokens = e.postOrder ∨ Derives t.tokens ∨ Mixture t.tokens e) := by
  have hp : compile "2*(a b +)" = .ok {
      source := "2*(a b +)"
      tokens := [.atom .number, .atom (.input 0), .atom (.input 1), .binary .add,
        .binary .multiply]
      literals := [2]
      depth := 3 } := by decide +kernel
  obtain ⟨t, e, ht, htokens, hnotation⟩ := accepted_of_compile hp (List.cons_ne_nil _ _)
  exact ⟨_, t, e, hp, List.cons_ne_nil _ _, ht, htokens, hnotation⟩

/-- A product releases a sine before its operand is read. That the counts agree does not help. -/
example :
    let ts : List Token := [.unary .sin, .binary .multiply, .atom (.input 0), .atom (.input 1)]
    tokenize "sin * a b" = .ok ⟨ts, []⟩ ∧ gaps true ts = 1 ∧ juxtapositions true ts = 1 ∧
      compile "sin * a b" = .error (.grammatical (.missingOperand 0)) := by decide +kernel

/-- An operator before both of its operands is accepted, though it is in neither notation. -/
theorem accepted_prefix_order :
    ∃ p t, compile "+ a b" = .ok p ∧ p.tokens ≠ [] ∧ tokenize "+ a b" = .ok t ∧
      (¬∃ e : Expression, e.postOrder = t.tokens) ∧ ¬Derives t.tokens := by
  have hp : compile "+ a b" = .ok {
      source := "+ a b"
      tokens := [.atom (.input 0), .atom (.input 1), .binary .add]
      literals := []
      depth := 2 } := by decide +kernel
  have ht : tokenize "+ a b" =
      .ok ⟨[.binary .add, .atom (.input 0), .atom (.input 1)], []⟩ := by decide +kernel
  refine ⟨_, _, hp, List.cons_ne_nil _ _, ht, ?_, fun hd => ?_⟩
  · rintro ⟨e, he⟩
    have hcheck := postfixDepth_postOrder e
    rw [he] at hcheck
    split at hcheck <;> cases hcheck
  · have hfaults : gaps true [.binary .add, .atom (.input 0), .atom (.input 1)] = 1 := by decide
    rw [hd.faultless.2] at hfaults
    cases hfaults

/-- Nothing but its depth keeps a mixture from being accepted. -/
theorem exists_compile_of_mixture {source : String} {t : TokenText} {e : Expression}
    (ht : tokenize source = .ok t) (h : Mixture t.tokens e) (hneed : e.need ≤ maxStackDepth) :
    ∃ p, compile source = .ok p := by
  have hne : t.tokens ≠ [] := by
    intro hnil
    have hj := h.juxtaposed
    rw [hnil] at hj
    cases hj
  rw [compile_of_tokenize ht hne, arrange, postfixOfInfix_eq_ok_iff.2 h.released]
  cases postfixDepth t.tokens with
  | ok depth => exact ⟨_, rfl⟩
  | error error =>
    simp only [postfixDepth_postOrder, if_pos hneed]
    exact ⟨_, rfl⟩

end Program

end Bytebeat
