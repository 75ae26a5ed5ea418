import Bytebeat.Program
import Bytebeat.Proofs.Expression
import Mathlib.Control.Monad.Basic

/-!
# Infix notation

`Spells enclosed e ts`: the tokens `ts` are the tree `e` in infix notation,
`enclosed` if they stand in parentheses of their own. Parentheses stand at
least where precedence and associativity ask for them (`BareOperand`,
`BareLeft`, `BareRight`), and as many more as one likes. Converting a spelling
leaves on the stack, above what waited before, only operators that bind at
least as tightly as the root (`Spells.converts`); hence the result is the
post-order of the tree (`postfixOfInfix_of_spells`). A spelling that is in
postfix order already is a sole operand (`Spells.leaf_or_run_error`), so that
compiling never takes an infix text for a postfix one.
-/

namespace Bytebeat

namespace Expression

/-- The precedence of the token at the root. -/
def precedence : Expression → Nat
  | leaf a => (Token.atom a).precedence
  | unary op _ => (Token.unary op).precedence
  | binary op _ _ => (Token.binary op).precedence

/-- May stand without parentheses after a prefix operator. -/
def BareOperand : Expression → Prop
  | binary .. => False
  | _ => True

/-- May stand without parentheses to the left of `op`. -/
def BareLeft (op : BinaryOp) (e : Expression) : Prop :=
  ¬(op.precedence < e.precedence ∨ e.precedence = op.precedence ∧ op.associativity = .right)

def BareRight (op : BinaryOp) (e : Expression) : Prop :=
  ¬(op.precedence < e.precedence ∨ e.precedence = op.precedence ∧ op.associativity = .left)

instance (op : BinaryOp) (e : Expression) : Decidable (e.BareLeft op) :=
  inferInstanceAs (Decidable (¬_))

instance (op : BinaryOp) (e : Expression) : Decidable (e.BareRight op) :=
  inferInstanceAs (Decidable (¬_))

end Expression

theorem BinaryOp.associativity_eq (op : BinaryOp) :
    op.associativity = if op.precedence = 3 then .right else .left := by
  cases op <;> rfl

namespace Infix

/-- The infix spellings of a tree. A negation is written with its own sign or with a minus sign. -/
inductive Spells : Bool → Expression → List Token → Prop where
  | leaf (a : Atom) : Spells false (.leaf a) [.atom a]
  | unary {b : Bool} {e : Expression} {ts : List Token} (op : UnaryOp) :
      Spells b e ts → (b = false → e.BareOperand) → Spells false (.unary op e) (.unary op :: ts)
  | minus {b : Bool} {e : Expression} {ts : List Token} :
      Spells b e ts → (b = false → e.BareOperand) →
      Spells false (.unary .negate e) (.binary .subtract :: ts)
  | binary {b c : Bool} {l r : Expression} {ls rs : List Token} (op : BinaryOp) :
      Spells b l ls → (b = false → l.BareLeft op) →
      Spells c r rs → (c = false → r.BareRight op) →
      Spells false (.binary op l r) (ls ++ .binary op :: rs)
  | parens {b : Bool} {e : Expression} {ts : List Token} :
      Spells b e ts → Spells true e (.leftParen :: ts ++ [.rightParen])

theorem Spells.ne_nil {b : Bool} {e : Expression} {ts : List Token} (h : Spells b e ts) :
    ts ≠ [] := by
  cases h <;> simp

/-! ## Tokens that wait -/

/-- Nothing that waits is released by `op`. -/
def Rests (waiting : List Token) (op : BinaryOp) : Prop :=
  ∀ top ∈ waiting.head?, yields top (.binary op) = false

theorem releaseFor_eq {op : BinaryOp} {held waiting : List Token}
    (hh : ∀ t ∈ held, yields t (.binary op) = true) (hw : Rests waiting op) (output : List Token) :
    releaseFor (.binary op) output (held ++ waiting) = (held.reverse ++ output, waiting) := by
  induction held generalizing output with
  | nil =>
    cases waiting with
    | nil => rfl
    | cons top waiting => simp [releaseFor, hw top rfl]
  | cons t held ih =>
    rw [List.cons_append, releaseFor, if_pos (hh t List.mem_cons_self),
      ih fun u hu => hh u (List.mem_cons_of_mem _ hu)]
    simp

theorem closeParen?_eq {held : List Token} (hh : ∀ t ∈ held, t ≠ .leftParen)
    (output waiting : List Token) :
    closeParen? output (held ++ .leftParen :: waiting) = some (held.reverse ++ output, waiting) := by
  induction held generalizing output with
  | nil => rfl
  | cons t held ih =>
    rw [List.cons_append, closeParen?, if_neg (hh t List.mem_cons_self),
      ih fun u hu => hh u (List.mem_cons_of_mem _ hu)]
    simp

theorem finish?_eq {held : List Token} (hh : ∀ t ∈ held, t ≠ .leftParen) (output : List Token) :
    finish? output held = some (held.reverse ++ output) := by
  induction held generalizing output with
  | nil => rfl
  | cons t held ih =>
    rw [finish?, if_neg (hh t List.mem_cons_self), ih fun u hu => hh u (List.mem_cons_of_mem _ hu)]
    simp

/-- What rests before an operator rests before the operators in its bare left operand. -/
theorem Rests.left {waiting : List Token} {op op' : BinaryOp} {l r : Expression}
    (h : Rests waiting op) (hb : (Expression.binary op' l r).BareLeft op) : Rests waiting op' := by
  intro top htop
  have h := h top htop
  simp only [yields, Token.precedence, Token.associativity, Expression.BareLeft,
    Expression.precedence, BinaryOp.associativity_eq] at h hb ⊢
  grind

/-- An operator rests before the operators in its bare right operand. -/
theorem Rests.right {waiting : List Token} {op op' : BinaryOp} {l r : Expression}
    (hb : (Expression.binary op' l r).BareRight op) : Rests (.binary op :: waiting) op' := by
  rintro top ⟨⟩
  simp only [yields, Token.precedence, Token.associativity, Expression.BareRight,
    Expression.precedence, BinaryOp.associativity_eq] at hb ⊢
  grind

theorem yields_of_bareLeft {op : BinaryOp} {e : Expression} {t : Token} (hb : e.BareLeft op)
    (ht : t ≠ .leftParen) (hp : t.precedence ≤ e.precedence) : yields t (.binary op) = true := by
  simp only [yields, Token.precedence, Token.associativity, Expression.BareLeft,
    BinaryOp.associativity_eq] at hp hb ⊢
  grind

/-! ## Converting a spelling -/

theorem State.run_cons_of_step {position : Nat} {t : Token} {s s' : State}
    (hs : s.step position t = .ok s') (ts : List Token) :
    s.run position (t :: ts) = s'.run (position + 1) ts := by
  simp only [State.run, hs]

/-- The state of a conversion after the spelling of `e`: the tokens `held` wait above those that
waited before, and emitting them completes the post-order of `e`. Nothing is held of a spelling in
parentheses. -/
structure Converted (enclosed : Bool) (e : Expression) (before held after : List Token) : Prop where
  enclosed_nil : enclosed = true → held = []
  noParen : ∀ t ∈ held, t ≠ .leftParen
  precedence_le : ∀ t ∈ held, t.precedence ≤ e.precedence
  emitted : held.reverse ++ after = e.postOrder.reverse ++ before

theorem Converted.unary {b : Bool} {e : Expression} {before held after : List Token}
    (h : Converted b e before held after) (hb : b = false → e.BareOperand) (op : UnaryOp) :
    Converted false (.unary op e) before (held ++ [.unary op]) after where
  enclosed_nil := nofun
  noParen t ht := by
    rcases List.mem_append.1 ht with ht | ht
    · exact h.noParen t ht
    · simp [List.mem_singleton.1 ht]
  precedence_le t ht := by
    rcases List.mem_append.1 ht with ht | ht
    · cases b with
      | true => simp [h.enclosed_nil rfl] at ht
      | false =>
        have hp := h.precedence_le t ht
        cases e with
        | leaf a => exact Nat.le_trans hp (Nat.zero_le _)
        | unary op' e => exact hp
        | binary op' l r => exact (hb rfl).elim
    · rw [List.mem_singleton.1 ht]; exact Nat.le_refl _
  emitted := by simp [Expression.postOrder, h.emitted]

/-- All that is held of a left operand is emitted before the operator starts to wait. -/
theorem Converted.yields {b : Bool} {e : Expression} {before held after : List Token}
    (h : Converted b e before held after) {op : BinaryOp} (hb : b = false → e.BareLeft op) :
    ∀ t ∈ held, yields t (.binary op) = true := by
  intro t ht
  cases b with
  | true => simp [h.enclosed_nil rfl] at ht
  | false => exact yields_of_bareLeft (hb rfl) (h.noParen t ht) (h.precedence_le t ht)

theorem Converted.binary {b c : Bool} {l r : Expression} {before held mid held' after : List Token}
    (hl : Converted b l before held mid) (hr : Converted c r (held.reverse ++ mid) held' after)
    {op : BinaryOp} (hc : c = false → r.BareRight op) :
    Converted false (.binary op l r) before (held' ++ [.binary op]) after where
  enclosed_nil := nofun
  noParen t ht := by
    rcases List.mem_append.1 ht with ht | ht
    · exact hr.noParen t ht
    · simp [List.mem_singleton.1 ht]
  precedence_le t ht := by
    rcases List.mem_append.1 ht with ht | ht
    · cases c with
      | true => simp [hr.enclosed_nil rfl] at ht
      | false =>
        have hp := hr.precedence_le t ht
        have hb := hc rfl
        simp only [Expression.BareRight, not_or, Nat.not_lt] at hb
        exact Nat.le_trans hp hb.1
    · rw [List.mem_singleton.1 ht]; exact Nat.le_refl _
  emitted := by simp [Expression.postOrder, hr.emitted, hl.emitted]

theorem State.step_binary {op : BinaryOp} {held waiting : List Token}
    (hh : ∀ t ∈ held, yields t (.binary op) = true) (hw : Rests waiting op)
    (position : Nat) (output : List Token) :
    State.step position (.binary op) ⟨output, held ++ waiting, false⟩ =
      .ok ⟨held.reverse ++ output, .binary op :: waiting, true⟩ := by
  simp [State.step, State.read, releaseFor_eq hh hw]

theorem State.step_rightParen {held : List Token} (hh : ∀ t ∈ held, t ≠ .leftParen)
    (position : Nat) (output waiting : List Token) :
    State.step position .rightParen ⟨output, held ++ .leftParen :: waiting, false⟩ =
      .ok ⟨held.reverse ++ output, waiting, false⟩ := by
  simp [State.step, State.read, closeParen?_eq hh]

/-- Where an operand is expected, the tokens `ts` are converted to the tree `e`, provided that what
waits before them is not released by its operators. -/
def Converts (enclosed : Bool) (e : Expression) (ts : List Token) : Prop :=
  ∀ (position : Nat) (output waiting rest : List Token),
    (enclosed = false → ∀ op l r, e = .binary op l r → Rests waiting op) →
    ∃ held output', Converted enclosed e output held output' ∧
      State.run position ⟨output, waiting, true⟩ (ts ++ rest) =
        State.run (position + ts.length) ⟨output', held ++ waiting, false⟩ rest

theorem Converts.leaf (a : Atom) : Converts false (.leaf a) [.atom a] := by
  intro position output waiting rest _
  exact ⟨[], .atom a :: output, ⟨fun _ => rfl, nofun, nofun, rfl⟩, rfl⟩

/-- The token `t` is the sign of a prefix operator where an operand is expected. -/
theorem Converts.unary {b : Bool} {e : Expression} {ts : List Token} {op : UnaryOp} {t : Token}
    (ht : ∀ position output waiting, State.step position t ⟨output, waiting, true⟩ =
      .ok ⟨output, .unary op :: waiting, true⟩)
    (hb : b = false → e.BareOperand) (h : Converts b e ts) :
    Converts false (.unary op e) (t :: ts) := by
  intro position output waiting rest _
  obtain ⟨held, output', hc, hrun⟩ := h (position + 1) output (.unary op :: waiting) rest
    fun hf _ _ _ he => by rw [he] at hb; exact (hb hf).elim
  refine ⟨held ++ [.unary op], output', hc.unary hb op, ?_⟩
  rw [List.cons_append, State.run_cons_of_step (ht _ _ _), hrun, List.length_cons,
    Nat.add_right_comm, Nat.add_assoc, List.append_assoc, List.singleton_append]

theorem Converts.binary {b c : Bool} {l r : Expression} {ls rs : List Token} {op : BinaryOp}
    (hl : Converts b l ls) (hbl : b = false → l.BareLeft op)
    (hr : Converts c r rs) (hbr : c = false → r.BareRight op) :
    Converts false (.binary op l r) (ls ++ .binary op :: rs) := by
  intro position output waiting rest hw
  have hw := hw rfl op l r rfl
  obtain ⟨held, mid, hcl, hrunl⟩ := hl position output waiting (.binary op :: rs ++ rest)
    fun hf _ _ _ he => by rw [he] at hbl; exact hw.left (hbl hf)
  obtain ⟨held', after, hcr, hrunr⟩ := hr (position + ls.length + 1) (held.reverse ++ mid)
    (.binary op :: waiting) rest fun hf _ _ _ he => by rw [he] at hbr; exact Rests.right (hbr hf)
  refine ⟨held' ++ [.binary op], after, hcl.binary hcr hbr, ?_⟩
  rw [List.append_assoc, hrunl, List.cons_append,
    State.run_cons_of_step (State.step_binary (hcl.yields hbl) hw _ _), hrunr]
  simp only [List.length_append, List.length_cons, List.append_assoc, List.singleton_append]
  congr 1
  omega

theorem Converts.parens {b : Bool} {e : Expression} {ts : List Token} (h : Converts b e ts) :
    Converts true e (.leftParen :: ts ++ [.rightParen]) := by
  intro position output waiting rest _
  obtain ⟨held, output', hc, hrun⟩ := h (position + 1) output (.leftParen :: waiting)
    (.rightParen :: rest) fun _ _ _ _ _ top htop => by cases htop; rfl
  refine ⟨[], held.reverse ++ output', ⟨fun _ => rfl, nofun, nofun, hc.emitted⟩, ?_⟩
  have hopen : State.step position .leftParen ⟨output, waiting, true⟩ =
      .ok ⟨output, .leftParen :: waiting, true⟩ := rfl
  rw [List.append_assoc, List.cons_append, State.run_cons_of_step hopen, List.singleton_append,
    hrun, State.run_cons_of_step (State.step_rightParen hc.noParen _ _ _)]
  simp only [List.length_append, List.length_cons, List.length_nil, List.nil_append]
  congr 1
  omega

theorem Spells.converts {b : Bool} {e : Expression} {ts : List Token} (h : Spells b e ts) :
    Converts b e ts := by
  induction h with
  | leaf a => exact .leaf a
  | unary op _ hb ih => exact .unary (fun _ _ _ => rfl) hb ih
  | minus _ hb ih => exact .unary (fun _ _ _ => rfl) hb ih
  | binary op _ hbl _ hbr ihl ihr => exact .binary ihl hbl ihr hbr
  | parens _ ih => exact .parens ih

end Infix

theorem postfixOfInfix_of_spells {b : Bool} {e : Expression} {ts : List Token}
    (h : Infix.Spells b e ts) : postfixOfInfix ts = .ok e.postOrder := by
  obtain ⟨held, output, hc, hrun⟩ := h.converts 0 [] [] [] fun _ _ _ _ _ => nofun
  rw [List.append_nil] at hrun
  have hemit := hc.emitted
  simp only [postfixOfInfix, hrun, Infix.State.run, List.append_nil, Infix.finish?_eq hc.noParen]
  rw [hemit, List.append_nil, List.reverse_reverse]

/-! ## Spellings are no postfix -/

/-- In every spelling but that of a sole operand the first or second token finds too few operands
or has no place in postfix order. -/
theorem Infix.Spells.leaf_or_run_error {b : Bool} {e : Expression} {ts : List Token}
    (h : Spells b e ts) (rest : List Token) :
    (∃ a, e = .leaf a ∧ ts = [.atom a]) ∨
      ∃ error, Postfix.run 0 {} (ts ++ rest) = .error error := by
  induction h generalizing rest with
  | leaf a => exact .inl ⟨a, rfl, rfl⟩
  | unary op h hb ih => exact .inr ⟨.missingOperand 0, rfl⟩
  | minus h hb ih => exact .inr ⟨.missingOperand 0, rfl⟩
  | @binary b c l r ls rs op hl hbl hr hbr ihl ihr =>
    refine .inr ?_
    rcases ihl (.binary op :: rs ++ rest) with ⟨a, -, rfl⟩ | ⟨error, herror⟩
    · exact ⟨.missingOperand 1, rfl⟩
    · exact ⟨error, by rw [List.append_assoc, herror]⟩
  | parens h ih => exact .inr ⟨.unexpectedToken 0, rfl⟩

theorem Program.arrange_of_spells {b : Bool} {e : Expression} {ts : List Token}
    (h : Infix.Spells b e ts) :
    arrange ts =
      if e.need ≤ maxStackDepth then .ok (e.postOrder, e.need)
      else .error (.tooDeep e.need maxStackDepth) := by
  rcases h.leaf_or_run_error [] with ⟨a, rfl, rfl⟩ | ⟨error, herror⟩
  · rfl
  · rw [List.append_nil] at herror
    simp only [arrange, postfixDepth, herror, postfixOfInfix_of_spells h]
    rw [← postfixDepth, postfixDepth_postOrder]
    split <;> rfl

/-- **Compiling an infix spelling gives the tree that is spelled**: its post-order, the literals in
the order written and the stack height it needs, unless that is too great. -/
theorem Program.compile_of_spells {source : String} {t : TokenText} {b : Bool} {e : Expression}
    (ht : tokenize source = .ok t) (hs : Infix.Spells b e t.tokens) :
    compile source =
      if e.need ≤ 128 then
        .ok { source, tokens := e.postOrder, literals := t.literals, depth := e.need }
      else .error (.grammatical (.tooDeep e.need 128)) := by
  have hne : t.tokens.isEmpty = false := by
    rw [List.isEmpty_eq_false_iff]
    exact hs.ne_nil
  simp only [compile, ht, hne, Bool.false_eq_true, if_false, arrange_of_spells hs, maxStackDepth]
  by_cases hneed : e.need ≤ 128 <;> simp [hneed]

/-- A prefix minus to the right of a tighter operator, a chain that groups to the right, and
parentheses that are needed. -/
theorem Program.compile_of_spells_power :
    compile "2**-a**(b-_ c)" = .ok {
      source := "2**-a**(b-_ c)"
      tokens := [.atom .number, .atom (.input 0), .unary .negate, .atom (.input 1),
        .atom (.input 2), .unary .negate, .binary .subtract, .binary .power, .binary .power]
      literals := [2]
      depth := 4 } :=
  compile_of_spells (b := false)
    (e := .binary .power (.leaf .number) (.binary .power (.unary .negate (.leaf (.input 0)))
      (.binary .subtract (.leaf (.input 1)) (.unary .negate (.leaf (.input 2))))))
    (t := ⟨[.atom .number, .binary .power, .binary .subtract, .atom (.input 0), .binary .power,
      .leftParen, .atom (.input 1), .binary .subtract, .unary .negate, .atom (.input 2),
      .rightParen], [2]⟩)
    (by decide +kernel)
    (@Infix.Spells.binary _ _ _ _ [_] _ .power (.leaf _) (fun _ => by decide)
      (@Infix.Spells.binary _ _ _ _ [_, _] _ .power (.minus (.leaf _) fun _ => trivial)
        (fun _ => by decide)
        (.parens (@Infix.Spells.binary _ _ _ _ [_] _ .subtract (.leaf _) (fun _ => by decide)
          (.unary .negate (.leaf _) fun _ => trivial) fun _ => by decide)) nofun)
      fun _ => by decide)

end Bytebeat
