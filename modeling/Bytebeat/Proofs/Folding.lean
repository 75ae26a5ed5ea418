import Bytebeat.Proofs.Grammar
import Bytebeat.Proofs.Meaning

/-!
# Folding signs into literals

A negation of a literal has the value of the literal negated. `Folds` relates a
tree and its literals to those in which some negations are folded so. Folding
keeps the value (`Folds.value_eq`) and the stack height that is needed
(`Folds.need_eq`), and asks for no further parentheses (`Folds.bareLeft`).
-/

namespace Bytebeat

/-- `Folds e vs e' ws`: the tree `e'` with the literals `ws` is the tree `e` with the literals `vs`,
but for negated literals in place of negations of literals. -/
inductive Folds : Expression → List Float → Expression → List Float → Prop where
  | literal (v : Float) : Folds (.leaf .number) [v] (.leaf .number) [v]
  | operand {a : Atom} : a ≠ .number → Folds (.leaf a) [] (.leaf a) []
  | sign (v : Float) : Folds (.unary .negate (.leaf .number)) [v] (.leaf .number) [-v]
  | unary {e e' : Expression} {vs ws : List Float} (op : UnaryOp) :
      Folds e vs e' ws → Folds (.unary op e) vs (.unary op e') ws
  | binary {l r l' r' : Expression} {vs ws vs' ws' : List Float} (op : BinaryOp) :
      Folds l vs l' vs' → Folds r ws r' ws' →
      Folds (.binary op l r) (vs ++ ws) (.binary op l' r') (vs' ++ ws')

namespace Folds

variable {e e' : Expression} {vs ws : List Float}

theorem need_eq (h : Folds e vs e' ws) : e'.need = e.need := by
  induction h with
  | literal v | operand ha | sign v => rfl
  | unary op _ ih => exact ih
  | binary op _ _ ihl ihr => rw [Expression.need, Expression.need, ihl, ihr]

theorem count_eq (h : Folds e vs e' ws) (a : Atom) : e'.count a = e.count a := by
  induction h with
  | literal v | operand ha | sign v => rfl
  | unary op _ ih => exact ih
  | binary op _ _ ihl ihr => rw [Expression.count, Expression.count, ihl, ihr]

theorem length_eq (h : Folds e vs e' ws) :
    vs.length = e.count .number ∧ ws.length = e.count .number := by
  induction h with
  | literal v | sign v => exact ⟨rfl, rfl⟩
  | operand ha => simp [Expression.count, ha]
  | unary op _ ih => exact ih
  | binary op _ _ ihl ihr => simp [Expression.count, ihl.1, ihl.2, ihr.1, ihr.2]

/-- **Folding keeps the value**, wherever the literals of the trees stand in their tables. -/
theorem value_eq (h : Folds e vs e' ws) (inputs : Inputs) (literal literal' draw : Nat → Float)
    {k k' : Nat} (j : Nat) (hvs : ∀ i (hi : i < vs.length), literal (k + i) = vs[i])
    (hws : ∀ i (hi : i < ws.length), literal' (k' + i) = ws[i]) :
    e'.value inputs literal' draw k' j = e.value inputs literal draw k j := by
  induction h generalizing k k' j with
  | literal v =>
    have hv := hvs 0 Nat.one_pos
    have hw := hws 0 Nat.one_pos
    simp only [Nat.add_zero, List.getElem_cons_zero] at hv hw
    simp only [Expression.value, hv, hw]
  | operand ha =>
    rename_i a
    cases a with
    | number => exact absurd rfl ha
    | _ => rfl
  | sign v =>
    have hv := hvs 0 Nat.one_pos
    have hw := hws 0 Nat.one_pos
    simp only [Nat.add_zero, List.getElem_cons_zero] at hv hw
    simp only [Expression.value, hv, hw]
    rfl
  | unary op _ ih => rw [Expression.value, Expression.value, ih j hvs hws]
  | @binary l r l' r' vs ws vs' ws' op hl hr ihl ihr =>
    have hleft := ihl j
      (fun i hi => by
        rw [hvs i (by simp only [List.length_append]; omega), List.getElem_append_left hi])
      (fun i hi => by
        rw [hws i (by simp only [List.length_append]; omega), List.getElem_append_left hi])
    have hright := @ihr (k + l.count .number) (k' + l'.count .number) (j + l.count .random)
      (fun i hi => by
        have hlen := hl.length_eq.1
        rw [Nat.add_assoc, hvs (l.count .number + i) (by simp only [List.length_append]; omega),
          List.getElem_append_right (by omega)]
        simp [hlen])
      (fun i hi => by
        have hlen := hl.length_eq.2
        rw [hl.count_eq, Nat.add_assoc,
          hws (l.count .number + i) (by simp only [List.length_append]; omega),
          List.getElem_append_right (by omega)]
        simp [hlen])
    rw [Expression.value, Expression.value, hleft, hl.count_eq .random, hright]

/-! ## Parentheses -/

theorem precedence_eq (h : Folds e vs e' ws) :
    e'.precedence = e.precedence ∨ e'.precedence = 0 := by
  cases h with
  | sign v => exact .inr rfl
  | _ => exact .inl rfl

theorem bareOperand (h : Folds e vs e' ws) (hb : e.BareOperand) : e'.BareOperand := by
  cases h with
  | binary op hl hr => exact hb.elim
  | _ => trivial

theorem bareLeft (h : Folds e vs e' ws) {op : BinaryOp} (hb : e.BareLeft op) :
    e'.BareLeft op := by
  have hthree := op.three_le_precedence
  unfold Expression.BareLeft at hb ⊢
  rcases h.precedence_eq with hp | hp
  · rwa [hp]
  · omega

theorem bareRight (h : Folds e vs e' ws) {op : BinaryOp} (hb : e.BareRight op) :
    e'.BareRight op := by
  have hthree := op.three_le_precedence
  unfold Expression.BareRight at hb ⊢
  rcases h.precedence_eq with hp | hp
  · rwa [hp]
  · omega

end Folds

end Bytebeat
