import Bytebeat.Proofs.Conversion
import Bytebeat.Proofs.Infix

/-!
# The infix grammar

`Derives ts`: the tokens `ts` are an infix expression, whatever its grouping.
An expression is told by its parentheses and two kinds of fault between
neighbours (`derives_iff`): an operand that starts right after another
(`juxtapositions`) and a place where an operand is missing (`gaps`). Precedence
and associativity give every expression a grouping (`derives_iff_spells`), and
no more than one (`Spells.unique`).
-/

namespace Bytebeat

theorem BinaryOp.three_le_precedence (op : BinaryOp) : 3 ≤ op.precedence := by
  cases op <;> decide

namespace Infix

/-- The tokens of an infix expression. A minus sign before an expression is a prefix operator. -/
inductive Derives : List Token → Prop where
  | operand (a : Atom) : Derives [.atom a]
  | unary {ts : List Token} (op : UnaryOp) : Derives ts → Derives (.unary op :: ts)
  | minus {ts : List Token} : Derives ts → Derives (.binary .subtract :: ts)
  | binary {ts us : List Token} (op : BinaryOp) :
      Derives ts → Derives us → Derives (ts ++ .binary op :: us)
  | parens {ts : List Token} : Derives ts → Derives (.leftParen :: ts ++ [.rightParen])

/-! ## Faults -/

/-- Whether an operand starts with the token. -/
def startsOperand : Token → Bool
  | .atom _ | .unary _ | .leftParen => true
  | _ => false

/-- Whether an operand has to stand before the token. -/
def endsOperand : Token → Bool
  | .binary op => op != .subtract
  | .rightParen => true
  | _ => false

/-- The number of operands that start where none is expected, right after another. -/
def juxtapositions (expects : Bool) : List Token → Nat
  | [] => 0
  | t :: ts =>
    (if !expects && startsOperand t then 1 else 0) + juxtapositions (expectsAfter t) ts

/-- The number of places where an operand is expected and none stands: before a binary operator,
before a closing parenthesis and at the end. -/
def gaps (expects : Bool) : List Token → Nat
  | [] => if expects then 1 else 0
  | t :: ts => (if expects && endsOperand t then 1 else 0) + gaps (expectsAfter t) ts

theorem Derives.juxtapositions_append {ts : List Token} (h : Derives ts) (rest : List Token) :
    juxtapositions true (ts ++ rest) = juxtapositions false rest := by
  induction h generalizing rest with
  | operand a => simp [juxtapositions, expectsAfter]
  | unary op _ ih => simp [juxtapositions, expectsAfter, ih]
  | minus _ ih => simp [juxtapositions, expectsAfter, ih]
  | binary op _ _ ihl ihr => simp [juxtapositions, expectsAfter, startsOperand, ihl, ihr]
  | parens _ ih => simp [juxtapositions, expectsAfter, startsOperand, ih]

theorem Derives.gaps_append {ts : List Token} (h : Derives ts) (rest : List Token) :
    gaps true (ts ++ rest) = gaps false rest := by
  induction h generalizing rest with
  | operand a => simp [gaps, expectsAfter, endsOperand]
  | unary op _ ih => simp [gaps, expectsAfter, endsOperand, ih]
  | minus _ ih => simp [gaps, expectsAfter, endsOperand, ih]
  | binary op _ _ ihl ihr => simp [gaps, expectsAfter, ihl, ihr]
  | parens _ ih => simp [gaps, expectsAfter, endsOperand, ih]

theorem Derives.faultless {ts : List Token} (h : Derives ts) :
    juxtapositions true ts = 0 ∧ gaps true ts = 0 := by
  have hj := h.juxtapositions_append []
  have hg := h.gaps_append []
  rw [List.append_nil] at hj hg
  exact ⟨hj, hg⟩

/-- Tokens that become an expression by any expression after them. -/
def Awaits (ts : List Token) : Prop := ∀ us, Derives us → Derives (ts ++ us)

/-- Tokens after which an operand is expected, or none. -/
def Stands : Bool → List Token → Prop
  | true, ts => Awaits ts
  | false, ts => Derives ts

/-- What has been read: the tokens before each open parenthesis, the innermost first, and those
after the last. -/
def unwind : List (List Token) → List Token → List Token
  | [], ts => ts
  | outer :: stack, ts => unwind stack (outer ++ .leftParen :: ts)

theorem unwind_append (stack : List (List Token)) (ts us : List Token) :
    unwind stack (ts ++ us) = unwind stack ts ++ us := by
  induction stack generalizing ts with
  | nil => rfl
  | cons outer stack ih => rw [unwind, unwind, ← ih, List.append_assoc, List.cons_append]

/-- The parentheses of `ts` close `depth` parentheses opened before, and those opened within. -/
structure Closes (depth : Nat) (ts : List Token) : Prop where
  closed_le : ∀ us, us <+: ts → us.count .rightParen ≤ us.count .leftParen + depth
  closed_eq : ts.count .rightParen = ts.count .leftParen + depth

theorem closes_cons_iff {depth : Nat} {t : Token} {ts : List Token} :
    Closes depth (t :: ts) ↔
      ∃ inner, depth + [t].count .leftParen = inner + [t].count .rightParen ∧ Closes inner ts := by
  have hleft := count_cons_eq_add t .leftParen
  have hright := count_cons_eq_add t .rightParen
  constructor
  · intro h
    have hfirst := h.closed_le [t] (List.prefix_append _ ts)
    refine ⟨depth + [t].count .leftParen - [t].count .rightParen, by omega, fun us hus => ?_, ?_⟩
    · have hle := h.closed_le (t :: us) (List.cons_prefix_cons.2 ⟨rfl, hus⟩)
      rw [hleft, hright] at hle
      omega
    · have heq := h.closed_eq
      rw [hleft, hright] at heq
      omega
  · rintro ⟨inner, hinner, h⟩
    refine ⟨fun us hus => ?_, ?_⟩
    · rcases List.prefix_cons_iff.1 hus with rfl | ⟨vs, rfl, hvs⟩
      · exact Nat.zero_le _
      · have hle := h.closed_le vs hvs
        rw [hleft, hright]
        omega
    · have heq := h.closed_eq
      rw [hleft, hright]
      omega

theorem closes_executable_iff {depth : Nat} (t : Token) (ht : t.isExecutable = true)
    {ts : List Token} : Closes depth (t :: ts) ↔ Closes depth ts := by
  have hl : [t].count .leftParen = 0 := List.count_eq_zero.2 (by rintro (_ | ⟨_, ⟨⟩⟩); cases ht)
  have hr : [t].count .rightParen = 0 := List.count_eq_zero.2 (by rintro (_ | ⟨_, ⟨⟩⟩); cases ht)
  simp [closes_cons_iff, hl, hr]

theorem closes_leftParen_iff {depth : Nat} {ts : List Token} :
    Closes depth (.leftParen :: ts) ↔ Closes (depth + 1) ts := by
  simp [closes_cons_iff]

theorem closes_rightParen_iff {depth : Nat} {ts : List Token} :
    Closes depth (.rightParen :: ts) ↔ ∃ outer, depth = outer + 1 ∧ Closes outer ts := by
  simp [closes_cons_iff]

/-- The induction is on the tokens still to be read: what stands before them at each level of
parentheses awaits an operand, or is an expression where none is expected. -/
theorem derives_unwind {ts : List Token} :
    ∀ (expects : Bool) (stack : List (List Token)) (done : List Token),
      (∀ outer ∈ stack, Awaits outer) → Stands expects done →
      juxtapositions expects ts = 0 → gaps expects ts = 0 → .invalid ∉ ts →
      Closes stack.length ts → Derives (unwind stack done ++ ts) := by
  induction ts with
  | nil =>
    intro expects stack done _ hdone _ hg _ hclose
    have hstack : stack = [] := List.length_eq_zero_iff.1 (by simpa using hclose.closed_eq.symm)
    cases expects with
    | true => cases hg
    | false => rw [hstack, unwind, List.append_nil]; exact hdone
  | cons t ts ih =>
    intro expects stack done hstack hdone hj hg hvalid hclose
    rw [juxtapositions, Nat.add_eq_zero_iff] at hj
    rw [gaps, Nat.add_eq_zero_iff] at hg
    rw [List.mem_cons, not_or] at hvalid
    rw [← List.singleton_append, ← List.append_assoc, ← unwind_append]
    cases t with
    | invalid => exact absurd rfl hvalid.1
    | atom a =>
      cases expects with
      | false => cases hj.1
      | true =>
        exact ih false stack _ hstack (hdone _ (.operand a)) hj.2 hg.2 hvalid.2
          ((closes_executable_iff (.atom a) rfl).1 hclose)
    | unary op =>
      cases expects with
      | false => cases hj.1
      | true =>
        refine ih true stack _ hstack (fun us hus => ?_) hj.2 hg.2 hvalid.2
          ((closes_executable_iff (.unary op) rfl).1 hclose)
        rw [List.append_assoc]
        exact hdone _ (hus.unary op)
    | binary op =>
      refine ih true stack _ hstack (fun us hus => ?_) hj.2 hg.2 hvalid.2
        ((closes_executable_iff (.binary op) rfl).1 hclose)
      rw [List.append_assoc]
      cases expects with
      | false => exact .binary op hdone hus
      | true =>
        have hminus : op = .subtract := by simpa [endsOperand] using hg.1
        exact hdone _ (hminus ▸ hus.minus)
    | leftParen =>
      cases expects with
      | false => cases hj.1
      | true =>
        exact ih true (done :: stack) [] (List.forall_mem_cons.2 ⟨hdone, hstack⟩) (fun _ h => h)
          hj.2 hg.2 hvalid.2 (closes_leftParen_iff.1 hclose)
    | rightParen =>
      cases expects with
      | true => cases hg.1
      | false =>
        obtain ⟨depth, hdepth, hclose⟩ := closes_rightParen_iff.1 hclose
        obtain ⟨outer, stack, rfl⟩ := List.exists_cons_of_length_eq_add_one hdepth
        obtain ⟨houter, hstack⟩ := List.forall_mem_cons.1 hstack
        obtain rfl : stack.length = depth := Nat.succ.inj hdepth
        exact ih false stack _ hstack (houter _ (.parens hdone)) hj.2 hg.2 hvalid.2 hclose

theorem Derives.closes {ts : List Token} (h : Derives ts) {depth : Nat} {rest : List Token}
    (hrest : Closes depth rest) : Closes depth (ts ++ rest) := by
  induction h generalizing depth rest with
  | operand a => exact (closes_executable_iff (.atom a) rfl).2 hrest
  | unary op _ ih => exact (closes_executable_iff (.unary op) rfl).2 (ih hrest)
  | minus _ ih => exact (closes_executable_iff (.binary .subtract) rfl).2 (ih hrest)
  | binary op _ _ ihl ihr =>
    rw [List.append_assoc]
    exact ihl ((closes_executable_iff (.binary op) rfl).2 (ihr hrest))
  | parens _ ih =>
    rw [List.append_assoc]
    exact closes_leftParen_iff.2 (ih (closes_rightParen_iff.2 ⟨_, rfl, hrest⟩))

theorem Derives.invalid_not_mem {ts : List Token} (h : Derives ts) : .invalid ∉ ts := by
  induction h <;> simp_all

/-- **Expressions are told by their parentheses and the neighbours of their tokens.** -/
theorem derives_iff {ts : List Token} :
    Derives ts ↔
      Balanced ts ∧ .invalid ∉ ts ∧ juxtapositions true ts = 0 ∧ gaps true ts = 0 := by
  constructor
  · intro h
    have hclose : Closes 0 (ts ++ []) := h.closes ⟨fun us hus => by simp [List.prefix_nil.1 hus], rfl⟩
    rw [List.append_nil] at hclose
    exact ⟨⟨hclose.closed_le, hclose.closed_eq⟩, h.invalid_not_mem, h.faultless⟩
  · rintro ⟨hbalanced, hvalid, hj, hg⟩
    exact derives_unwind true [] [] nofun (fun _ h => h) hj hg hvalid
      ⟨hbalanced.closed_le, hbalanced.closed_eq⟩

/-! ## Counting operands and operators -/

def isBinary : Token → Bool
  | .binary _ => true
  | _ => false

/-- Each binary operator takes two operands and makes one, but for the operands that are missing
and those that no operator joins. -/
theorem count_operands_readings {ts : List Token} (hvalid : .invalid ∉ ts) (expects : Bool) :
    (operands ts).length + gaps expects ts + (if expects then 0 else 1) =
      (readings expects ts).countP isBinary + juxtapositions expects ts + 1 := by
  induction ts generalizing expects with
  | nil => cases expects <;> rfl
  | cons t ts ih =>
    rw [List.mem_cons, not_or] at hvalid
    have ih := ih hvalid.2 (expectsAfter t)
    rw [operands_cons, gaps, readings, List.countP_cons, juxtapositions, List.length_append]
    cases t with
    | invalid => exact absurd rfl hvalid.1
    | atom a | unary op | leftParen | rightParen =>
      cases expects <;>
        simp [Token.operand?, endsOperand, startsOperand, State.read, isBinary, expectsAfter]
          at ih ⊢ <;> omega
    | binary op =>
      by_cases hminus : op = .subtract
      · subst hminus
        cases expects <;>
          simp [Token.operand?, endsOperand, startsOperand, State.read, isBinary, expectsAfter]
            at ih ⊢ <;> omega
      · cases expects <;>
          simp [Token.operand?, endsOperand, startsOperand, State.read, isBinary, expectsAfter,
            hminus] at ih ⊢ <;> omega

theorem countP_isBinary_filter (ts : List Token) :
    (ts.filter Token.isExecutable).countP isBinary = ts.countP isBinary := by
  rw [List.countP_filter]
  refine List.countP_congr fun t _ => ?_
  cases t <;> simp [isBinary, Token.isExecutable, Token.arity]

theorem length_operands_postOrder (e : Expression) :
    (operands e.postOrder).length = e.postOrder.countP isBinary + 1 := by
  induction e with
  | leaf a => rfl
  | unary op e ih => simpa [Expression.postOrder, operands_cons, Token.operand?, isBinary] using ih
  | binary op l r ihl ihr =>
    simp [Expression.postOrder, operands_cons, Token.operand?, isBinary, ihl, ihr]
    omega

/-- What the conversion takes for an expression has as many gaps as juxtapositions. -/
theorem gaps_eq_juxtapositions {ts : List Token} {e : Expression}
    (h : postfixOfInfix ts = .ok e.postOrder) : gaps true ts = juxtapositions true ts := by
  have hcount := count_operands_readings (invalid_not_mem_of_postfixOfInfix h) true
  have hbinary := (perm_of_postfixOfInfix h).countP_eq isBinary
  rw [countP_isBinary_filter] at hbinary
  rw [← operands_of_postfixOfInfix h, length_operands_postOrder, hbinary] at hcount
  simp only [if_true] at hcount
  omega

/-! ## Grouping -/

theorem Spells.derives {b : Bool} {e : Expression} {ts : List Token} (h : Spells b e ts) :
    Derives ts := by
  induction h with
  | leaf a => exact .operand a
  | unary op _ _ ih => exact ih.unary op
  | minus _ _ ih => exact ih.minus
  | binary op _ _ _ _ ihl ihr => exact .binary op ihl ihr
  | parens _ ih => exact ih.parens

theorem precedence_le_of_bareOperand {e : Expression} (h : e.BareOperand) : e.precedence ≤ 2 := by
  cases e with
  | leaf a => exact Nat.zero_le _
  | unary op e => exact Nat.le_refl _
  | binary op l r => exact h.elim

theorem bareLeft_of_bareOperand {e : Expression} (h : e.BareOperand) (op : BinaryOp) :
    e.BareLeft op := by
  have := precedence_le_of_bareOperand h
  have := op.three_le_precedence
  unfold Expression.BareLeft
  omega

theorem bareRight_of_bareOperand {e : Expression} (h : e.BareOperand) (op : BinaryOp) :
    e.BareRight op := by
  have := precedence_le_of_bareOperand h
  have := op.three_le_precedence
  unfold Expression.BareRight
  omega

/-- One more operand at the end: the operator before it goes as far up as it binds loosely. -/
theorem Spells.exists_snoc {b c : Bool} {e u : Expression} {ts us : List Token}
    (h : Spells b e ts) (op : BinaryOp) (hu : Spells c u us) (hc : c = false → u.BareOperand) :
    ∃ e', Spells false e' (ts ++ .binary op :: us) ∧
      (e'.precedence = op.precedence ∨ b = false ∧ e'.precedence = e.precedence) := by
  have hright : c = false → u.BareRight op := fun hf => bareRight_of_bareOperand (hc hf) op
  induction h with
  | leaf a =>
    exact ⟨_, .binary op (.leaf a) (fun _ => bareLeft_of_bareOperand (e := .leaf a) trivial op) hu
      hright, .inl rfl⟩
  | @unary b e ts op' h hb =>
    exact ⟨_, .binary op (.unary op' h hb) (fun _ => bareLeft_of_bareOperand (e := .unary op' e)
      trivial op) hu hright, .inl rfl⟩
  | @minus b e ts h hb =>
    exact ⟨_, .binary op (.minus h hb) (fun _ => bareLeft_of_bareOperand (e := .unary .negate e)
      trivial op) hu hright, .inl rfl⟩
  | parens h => exact ⟨_, .binary op h.parens nofun hu hright, .inl rfl⟩
  | @binary b' c' l r ls rs op' hl hbl hr hbr ihl ihr =>
    by_cases hleft : (Expression.binary op' l r).BareLeft op
    · exact ⟨_, .binary op (.binary op' hl hbl hr hbr) (fun _ => hleft) hu hright, .inl rfl⟩
    obtain ⟨r', hr', hprec⟩ := ihr
    rw [List.append_assoc, List.cons_append]
    refine ⟨_, .binary op' hl hbl hr' fun _ => ?_, .inr ⟨rfl, rfl⟩⟩
    have hassoc := op.associativity_eq
    have hassoc' := op'.associativity_eq
    simp only [Expression.BareLeft, Expression.BareRight, Expression.precedence, Token.precedence,
      Decidable.not_not] at hleft hbr hprec ⊢
    rcases hprec with hprec | ⟨rfl, hprec⟩
    · grind
    · rw [hprec]
      exact hbr rfl

/-- Operands joined by binary operators, where an operand has no binary operator outside of its
parentheses. -/
inductive Chain : List Token → Prop where
  | operand {b : Bool} {u : Expression} {us : List Token} :
      Spells b u us → (b = false → u.BareOperand) → Chain us
  | snoc {b : Bool} {u : Expression} {ts us : List Token} (op : BinaryOp) :
      Chain ts → Spells b u us → (b = false → u.BareOperand) → Chain (ts ++ .binary op :: us)

theorem Chain.exists_spells {ts : List Token} (h : Chain ts) : ∃ b e, Spells b e ts := by
  induction h with
  | operand hu _ => exact ⟨_, _, hu⟩
  | snoc op _ hu hb ih =>
    obtain ⟨b, e, he⟩ := ih
    obtain ⟨e', he', -⟩ := he.exists_snoc op hu hb
    exact ⟨false, e', he'⟩

theorem Chain.append {ts us : List Token} (op : BinaryOp) (ht : Chain ts) (hu : Chain us) :
    Chain (ts ++ .binary op :: us) := by
  induction hu with
  | operand hu hb => exact .snoc op ht hu hb
  | snoc op' _ hu hb ih =>
    rw [← List.cons_append, ← List.append_assoc]
    exact .snoc op' ih hu hb

theorem Chain.prefixed {t : Token} {op : UnaryOp}
    (ht : ∀ {b : Bool} {e : Expression} {ts : List Token}, Spells b e ts →
      (b = false → e.BareOperand) → Spells false (.unary op e) (t :: ts))
    {ts : List Token} (h : Chain ts) : Chain (t :: ts) := by
  induction h with
  | operand hu hb => exact .operand (ht hu hb) fun _ => trivial
  | snoc op' _ hu hb ih => exact .snoc op' ih hu hb

theorem Derives.chain {ts : List Token} (h : Derives ts) : Chain ts := by
  induction h with
  | operand a => exact .operand (.leaf a) fun _ => trivial
  | unary op _ ih => exact ih.prefixed (.unary op)
  | minus _ ih => exact ih.prefixed .minus
  | binary op _ _ ihl ihr => exact ihl.append op ihr
  | parens _ ih =>
    obtain ⟨b, e, he⟩ := ih.exists_spells
    exact .operand he.parens nofun

/-- Precedence and associativity group the tokens of every expression. -/
theorem derives_iff_spells {ts : List Token} : Derives ts ↔ ∃ b e, Spells b e ts :=
  ⟨fun h => h.chain.exists_spells, fun ⟨_, _, h⟩ => h.derives⟩

theorem Spells.unique {b b' : Bool} {e e' : Expression} {ts : List Token} (h : Spells b e ts)
    (h' : Spells b' e' ts) : e = e' := by
  have hconv := postfixOfInfix_of_spells h
  rw [postfixOfInfix_of_spells h', Except.ok.injEq] at hconv
  exact Expression.postOrder_injective hconv.symm

end Infix

end Bytebeat
