import Bytebeat.Token.Postfix

/-!
# Expression trees

The trees that expressions stand for, apart from any notation. `postOrder` is
the postfix notation of a tree and `need` the stack height that evaluating it
takes. Checking a post-order finds exactly that height
(`postfixDepth_postOrder`), and only post-orders pass the check
(`exists_expression_of_postfixDepth`). No two trees have the same post-order
(`postOrder_injective`).
-/

namespace Bytebeat

inductive Expression where
  | leaf (a : Atom)
  | unary (op : UnaryOp) (e : Expression)
  | binary (op : BinaryOp) (l r : Expression)
  deriving DecidableEq, Repr

namespace Expression

/-- The tokens of a tree, operands before their operator. -/
def postOrder : Expression → List Token
  | leaf a => [.atom a]
  | unary op e => e.postOrder ++ [.unary op]
  | binary op l r => l.postOrder ++ r.postOrder ++ [.binary op]

/-- The stack height it takes to evaluate a tree. -/
def need : Expression → Nat
  | leaf _ => 1
  | unary _ e => e.need
  | binary _ l r => max l.need (1 + r.need)

theorem need_pos (e : Expression) : 0 < e.need := by
  induction e with
  | leaf a => exact Nat.one_pos
  | unary op e ih => exact ih
  | binary op l r ihl ihr => exact Nat.lt_of_lt_of_le ihl (Nat.le_max_left _ _)

theorem postOrder_ne_nil (e : Expression) : e.postOrder ≠ [] := by
  cases e <;> simp [postOrder]

/-- The post-orders of the trees on a stack, the lowest first; the list has the top first. -/
def postOrders : List Expression → List Token
  | [] => []
  | e :: es => postOrders es ++ e.postOrder

/-! ## Reading trees back -/

/-- Reads postfix tokens back onto a stack of trees, the latest first; `none` where an operator
finds too few operands. -/
def read? : List Expression → List Token → Option (List Expression)
  | es, [] => some es
  | es, .atom a :: ts => read? (.leaf a :: es) ts
  | e :: es, .unary op :: ts => read? (.unary op e :: es) ts
  | r :: l :: es, .binary op :: ts => read? (.binary op l r :: es) ts
  | _, _ => none

theorem read?_postOrder (e : Expression) (es : List Expression) (rest : List Token) :
    read? es (e.postOrder ++ rest) = read? (e :: es) rest := by
  induction e generalizing es rest with
  | leaf a => rfl
  | unary op e ih => simp only [postOrder, List.append_assoc, ih]; rfl
  | binary op l r ihl ihr => simp only [postOrder, List.append_assoc, ihl, ihr]; rfl

theorem postOrders_of_read? {es es' : List Expression} {ts : List Token}
    (h : read? es ts = some es') : postOrders es' = postOrders es ++ ts := by
  fun_induction read? es ts with
  | case1 es => cases h; exact (List.append_nil _).symm
  | case2 es a ts ih => simp [ih h, postOrders, postOrder]
  | case3 e es op ts ih => simp [ih h, postOrders, postOrder]
  | case4 r l es op ts ih => simp [ih h, postOrders, postOrder]
  | case5 => cases h

theorem postOrder_injective {e e' : Expression} (h : e.postOrder = e'.postOrder) : e = e' := by
  have hr := read?_postOrder e [] []
  rw [List.append_nil, h, ← List.append_nil e'.postOrder, read?_postOrder] at hr
  simpa [read?] using hr.symm

end Expression

/-! ## The check of postfix order -/

namespace Postfix

theorem run_cons_of_step {position : Nat} {t : Token} {h h' : Heights}
    (hs : step position t h = .ok h') (ts : List Token) :
    run position h (t :: ts) = run (position + 1) h' ts := by
  simp only [run, hs]

theorem run_cons_eq_ok {position : Nat} {t : Token} {ts : List Token} {h h' : Heights}
    (hrun : run position h (t :: ts) = .ok h') :
    ∃ h₁, step position t h = .ok h₁ ∧ run (position + 1) h₁ ts = .ok h' := by
  cases hs : step position t h with
  | error e => rw [run, hs] at hrun; cases hrun
  | ok h₁ => exact ⟨h₁, rfl, by rwa [run_cons_of_step hs] at hrun⟩

theorem run_append (ts us : List Token) :
    ∀ (position : Nat) (h : Heights), run position h (ts ++ us) =
      match run position h ts with
      | .ok h' => run (position + ts.length) h' us
      | .error e => .error e := by
  induction ts with
  | nil => exact fun _ _ => rfl
  | cons t ts ih =>
    intro position h
    rw [List.cons_append, run, run]
    cases step position t h with
    | error e => rfl
    | ok h' =>
      rw [List.length_cons, Nat.add_comm ts.length 1, ← Nat.add_assoc]
      exact ih _ _

theorem run_append_eq_ok {ts us : List Token} {position : Nat} {h h' : Heights}
    (hrun : run position h (ts ++ us) = .ok h') :
    ∃ h₁, run position h ts = .ok h₁ ∧ run (position + ts.length) h₁ us = .ok h' := by
  rw [run_append] at hrun
  split at hrun
  · exact ⟨_, ‹_›, hrun⟩
  · cases hrun

theorem stackEffect?_of_step {position : Nat} {t : Token} {h h' : Heights}
    (hs : step position t h = .ok h') :
    t.arity.stackEffect? = some ((h'.current : Int) - h.current) := by
  cases t with
  | atom a =>
    cases hs
    simp only [Token.arity, Arity.stackEffect?, Option.some.injEq]
    omega
  | unary op | binary op =>
    simp only [step, Token.arity] at hs
    split at hs
    · cases hs
    · cases hs
      simp only [Token.arity, Arity.stackEffect?, Option.some.injEq]
      omega
  | leftParen | rightParen | invalid => cases hs

theorem greatest_of_step {position : Nat} {t : Token} {h h' : Heights}
    (hs : step position t h = .ok h') :
    h.greatest ≤ h'.greatest ∧ (h'.greatest = h.greatest ∨ h'.greatest = h'.current) := by
  cases t with
  | atom a =>
    cases hs
    refine ⟨Nat.le_max_left _ _, ?_⟩
    simp only
    omega
  | unary op | binary op =>
    simp only [step, Token.arity] at hs
    split at hs
    · cases hs
    · cases hs; exact ⟨Nat.le_refl _, .inl rfl⟩
  | leftParen | rightParen | invalid => cases hs

theorem greatest_le_of_run {ts : List Token} :
    ∀ {position : Nat} {h h' : Heights}, run position h ts = .ok h' → h.greatest ≤ h'.greatest := by
  induction ts with
  | nil => intro position h h' hrun; cases hrun; exact Nat.le_refl _
  | cons t ts ih =>
    intro position h h' hrun
    obtain ⟨h₁, hs, hrun⟩ := run_cons_eq_ok hrun
    exact Nat.le_trans (greatest_of_step hs).1 (ih hrun)

/-- The greatest height is one that the stack has after some of the tokens, unless it was reached
before them. -/
theorem exists_greatest_of_run {ts : List Token} :
    ∀ {position : Nat} {h h' : Heights}, run position h ts = .ok h' →
      h'.greatest = h.greatest ∨
        ∃ done h₁, done <+: ts ∧ run position h done = .ok h₁ ∧ h₁.current = h'.greatest := by
  induction ts with
  | nil => intro position h h' hrun; cases hrun; exact .inl rfl
  | cons t ts ih =>
    intro position h h' hrun
    obtain ⟨h₁, hs, hrun⟩ := run_cons_eq_ok hrun
    rcases ih hrun with hg | ⟨done, h₂, hdone, hrun', hcur⟩
    · rcases (greatest_of_step hs).2 with hg' | hg'
      · exact .inl (hg.trans hg')
      · refine .inr ⟨[t], h₁, List.prefix_append [t] ts, ?_, (hg.trans hg').symm⟩
        rw [run_cons_of_step hs]; rfl
    · exact .inr ⟨t :: done, h₂, by simpa using hdone, by rw [run_cons_of_step hs, hrun'], hcur⟩

/-- A post-order puts one value on the stack and reaches as high as the tree needs. -/
theorem run_postOrder (e : Expression) (position : Nat) (h : Heights) (rest : List Token) :
    run position h (e.postOrder ++ rest) =
      run (position + e.postOrder.length) ⟨h.current + 1, max h.greatest (h.current + e.need)⟩
        rest := by
  induction e generalizing position h rest with
  | leaf a => rfl
  | unary op e ih =>
    rw [Expression.postOrder, List.append_assoc, ih, List.singleton_append,
      run_cons_of_step (show step _ (.unary op) _ =
        .ok ⟨h.current + 1, max h.greatest (h.current + e.need)⟩ by simp [step, Token.arity])]
    simp only [List.length_append, List.length_singleton, Nat.add_assoc, Expression.need]
  | binary op l r ihl ihr =>
    rw [Expression.postOrder, List.append_assoc, List.append_assoc, ihl, ihr, List.singleton_append,
      run_cons_of_step (show step _ (.binary op) _ = .ok ⟨h.current + 1,
        max (max h.greatest (h.current + l.need)) (h.current + 1 + r.need)⟩
        by simp [step, Token.arity])]
    have hmax : max (max h.greatest (h.current + l.need)) (h.current + 1 + r.need) =
        max h.greatest (h.current + max l.need (1 + r.need)) := by omega
    simp only [List.length_append, List.length_singleton, Nat.add_assoc, Expression.need] at hmax ⊢
    rw [hmax]

/-- Tokens that never lack an operand can be read back, to one tree for each value on the
stack. -/
theorem exists_read?_of_run {ts : List Token} :
    ∀ (es : List Expression) {position : Nat} {h h' : Heights}, h.current = es.length →
      run position h ts = .ok h' →
      ∃ es', Expression.read? es ts = some es' ∧ h'.current = es'.length := by
  induction ts with
  | nil =>
    intro es position h h' hes hrun
    cases hrun
    exact ⟨es, by simp [Expression.read?], hes⟩
  | cons t ts ih =>
    intro es position h h' hes hrun
    cases t with
    | atom a => exact ih (.leaf a :: es) (by simp [hes]) hrun
    | unary op =>
      match es with
      | [] => simp [run, step, Token.arity, hes] at hrun
      | e :: es =>
        rw [run_cons_of_step (show step _ (.unary op) _ = .ok h
          by simp [step, Token.arity, hes])] at hrun
        exact ih (.unary op e :: es) hes hrun
    | binary op =>
      match es with
      | [] | [_] => simp [run, step, Token.arity, hes] at hrun
      | r :: l :: es =>
        rw [run_cons_of_step (show step _ (.binary op) _ =
          .ok { h with current := h.current - 1 } by simp [step, Token.arity, hes])] at hrun
        exact ih (.binary op l r :: es) (by simp [hes]) hrun
    | leftParen | rightParen | invalid => simp [run, step, Token.arity] at hrun

end Postfix

theorem heights_of_postfixDepth {ts : List Token} {d : Nat} (h : postfixDepth ts = .ok d) :
    d ≤ maxStackDepth ∧ Postfix.run 0 {} ts = .ok ⟨1, d⟩ := by
  unfold postfixDepth at h
  split at h
  · cases h
  · rename_i heights hrun
    split at h
    · cases h
    · rename_i hone
      split at h
      · cases h
      · rename_i hle
        cases h
        exact ⟨Nat.not_lt.1 hle, by rw [hrun, ← Decidable.not_not.1 hone]⟩

theorem postfixDepth_postOrder (e : Expression) :
    postfixDepth e.postOrder =
      if e.need ≤ maxStackDepth then .ok e.need else .error (.tooDeep e.need maxStackDepth) := by
  have hrun := Postfix.run_postOrder e 0 {} []
  rw [List.append_nil] at hrun
  simp only [postfixDepth, hrun, Postfix.run, Nat.zero_max, Nat.zero_add]
  by_cases h : e.need ≤ maxStackDepth
  · simp [h, Nat.not_lt.2 h]
  · simp [h, Nat.not_le.1 h]

/-- Tokens that pass the check are the post-order of a tree, which needs the height found. -/
theorem exists_expression_of_postfixDepth {ts : List Token} {d : Nat}
    (h : postfixDepth ts = .ok d) :
    ∃ e : Expression, e.postOrder = ts ∧ e.need = d ∧ d ≤ maxStackDepth := by
  obtain ⟨hle, hrun⟩ := heights_of_postfixDepth h
  obtain ⟨es, hread, hlen⟩ := Postfix.exists_read?_of_run [] rfl hrun
  obtain ⟨e, rfl⟩ := List.length_eq_one_iff.1 hlen.symm
  obtain rfl : e.postOrder = ts := Expression.postOrders_of_read? hread
  rw [postfixDepth_postOrder] at h
  split at h
  · cases h; exact ⟨e, rfl, rfl, hle⟩
  · cases h

end Bytebeat
