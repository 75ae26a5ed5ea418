import Bytebeat.Proofs.Expression

/-!
# Which lists of tokens are post-orders

`Begins ts`: some post-order starts with `ts`. Of these tokens the check of
postfix order refuses none (`begins_iff_exists_run`), and they split into
post-orders (`exists_forest_of_run`), in one way only
(`flatMap_postOrder_injective`). So the check tells post-orders, the first token
that cannot stand where it does, and the number of trees where it is not one
(`postfixDepth_exact`).
-/

namespace Bytebeat

namespace Expression

/-! ## Rows of trees -/

theorem read?_flatMap_postOrder (es stack : List Expression) (rest : List Token) :
    read? stack (es.flatMap postOrder ++ rest) = read? (es.reverse ++ stack) rest := by
  induction es generalizing stack with
  | nil => rfl
  | cons e es ih =>
    rw [List.flatMap_cons, List.append_assoc, read?_postOrder, ih, List.reverse_cons,
      List.append_assoc, List.singleton_append]

theorem flatMap_postOrder_injective {es es' : List Expression}
    (h : es.flatMap postOrder = es'.flatMap postOrder) : es = es' := by
  have hread : ∀ es : List Expression, read? [] (es.flatMap postOrder) = some es.reverse := by
    intro es
    have hes := read?_flatMap_postOrder es [] []
    rwa [List.append_nil, List.append_nil, read?] at hes
  have hes := hread es
  rw [h, hread es', Option.some.injEq] at hes
  exact (List.reverse_inj.1 hes).symm

theorem postOrders_eq_flatMap (es : List Expression) :
    postOrders es = es.reverse.flatMap postOrder := by
  induction es with
  | nil => rfl
  | cons e es ih => simp [postOrders, ih]

/-- Sums make one tree of a row of trees. -/
theorem exists_postOrder_append (e : Expression) (es : List Expression) :
    ∃ more whole, (e :: es).flatMap postOrder ++ more = postOrder whole := by
  induction es generalizing e with
  | nil => exact ⟨[], e, by simp⟩
  | cons e' es ih =>
    obtain ⟨more, whole, hwhole⟩ := ih e'
    refine ⟨more ++ [.binary .add], .binary .add e whole, ?_⟩
    rw [postOrder, ← hwhole, List.flatMap_cons]
    simp only [List.append_assoc]

end Expression

open Expression (postOrder)

namespace Postfix

/-! ## Beginnings of post-orders -/

def Begins (ts : List Token) : Prop := ∃ more e, ts ++ more = postOrder e

theorem begins_flatMap_postOrder (es : List Expression) : Begins (es.flatMap postOrder) := by
  cases es with
  | nil => exact ⟨_, .leaf .pi, rfl⟩
  | cons e es => exact Expression.exists_postOrder_append e es

theorem exists_forest_of_run {ts : List Token} {h : Heights} (hrun : run 0 {} ts = .ok h) :
    ∃ es : List Expression, es.flatMap postOrder = ts ∧ h.current = es.length := by
  obtain ⟨stack, hread, hlength⟩ := exists_read?_of_run [] rfl hrun
  refine ⟨stack.reverse, ?_, by rw [List.length_reverse, hlength]⟩
  rw [← Expression.postOrders_eq_flatMap, Expression.postOrders_of_read? hread]
  rfl

theorem begins_iff_exists_run {ts : List Token} : Begins ts ↔ ∃ h, run 0 {} ts = .ok h := by
  constructor
  · rintro ⟨more, e, he⟩
    have hrun := run_postOrder e 0 {} []
    rw [List.append_nil, ← he] at hrun
    obtain ⟨h, hts, -⟩ := run_append_eq_ok hrun
    exact ⟨h, hts⟩
  · rintro ⟨h, hrun⟩
    obtain ⟨es, rfl, -⟩ := exists_forest_of_run hrun
    exact begins_flatMap_postOrder es

/-! ## The first token that cannot stand where it does -/

/-- The tokens before `position` begin a post-order, and no longer do with the one at `position`. -/
structure FirstFault (ts : List Token) (position : Nat) : Prop where
  before : ∀ k ≤ position, Begins (ts.take k)
  fault : ¬Begins (ts.take (position + 1))

theorem eq_of_step_eq_error {position : Nat} {t : Token} {h : Heights} {e : SyntaxError}
    (hs : step position t h = .error e) :
    e = if t.arity = .structural then .unexpectedToken position else .missingOperand position := by
  cases t with
  | atom a => cases hs
  | unary op | binary op =>
    simp only [step, Token.arity] at hs
    split at hs
    · cases hs; rfl
    · cases hs
  | leftParen | rightParen | invalid => cases hs; rfl

theorem FirstFault.run_eq {ts : List Token} {position : Nat} (h : FirstFault ts position) :
    ∃ t, ts[position]? = some t ∧ run 0 {} ts =
      .error (if t.arity = .structural then .unexpectedToken position
        else .missingOperand position) := by
  obtain ⟨heights, hbefore⟩ := begins_iff_exists_run.1 (h.before position (Nat.le_refl _))
  have hlt : position < ts.length := by
    refine Nat.lt_of_not_le fun hle => h.fault ?_
    rw [List.take_of_length_le (Nat.le_succ_of_le hle), ← List.take_of_length_le hle]
    exact h.before position (Nat.le_refl _)
  have hlength : 0 + (ts.take position).length = position := by
    rw [Nat.zero_add, List.length_take, Nat.min_eq_left (Nat.le_of_lt hlt)]
  have hnext := fun us => run_append (ts.take position) us 0 {}
  simp only [hbefore, hlength] at hnext
  refine ⟨ts[position], List.getElem?_eq_getElem hlt, ?_⟩
  cases hs : step position ts[position] heights with
  | ok heights' =>
    refine absurd (begins_iff_exists_run.2 ⟨heights', ?_⟩) h.fault
    rw [List.take_succ_eq_append_getElem hlt, hnext, run_cons_of_step hs]
    rfl
  | error e =>
    rw [← eq_of_step_eq_error hs]
    conv => lhs; rw [← List.take_append_drop position ts, List.drop_eq_getElem_cons hlt]
    rw [hnext, run, hs]

/-- Where there is no first fault all tokens together begin a post-order. -/
theorem begins_of_no_fault {ts : List Token} (h : ¬∃ position, FirstFault ts position) :
    Begins ts := by
  have hall : ∀ position, ∀ k ≤ position, Begins (ts.take k) := by
    intro position
    induction position with
    | zero => exact fun k hk => Nat.le_zero.1 hk ▸ begins_flatMap_postOrder []
    | succ position ih =>
      intro k hk
      rcases Nat.le_succ_iff.1 hk with hk | rfl
      · exact ih k hk
      · exact Classical.not_not.1 fun hfault => h ⟨position, ih, hfault⟩
  rw [← List.take_length (l := ts)]
  exact hall _ _ (Nat.le_refl _)

end Postfix

/-! ## The check -/

open Postfix (Begins FirstFault)

theorem postfixDepth_eq_ok_iff {ts : List Token} {d : Nat} :
    postfixDepth ts = .ok d ↔
      ∃ e : Expression, e.postOrder = ts ∧ e.need = d ∧ d ≤ maxStackDepth := by
  refine ⟨exists_expression_of_postfixDepth, ?_⟩
  rintro ⟨e, rfl, rfl, hle⟩
  rw [postfixDepth_postOrder, if_pos hle]

/-- **The check accepts exactly the post-orders of trees that need no more than 128 values.** No two
trees have one post-order. A tree that needs more is refused with what it needs. Of other tokens the
check reports the first that no post-order has in its place, or, where there is none, the number of
trees they stand for. -/
theorem postfixDepth_exact (ts : List Token) :
    (∀ d, postfixDepth ts = .ok d ↔
        ∃ e : Expression, e.postOrder = ts ∧ e.need = d ∧ d ≤ 128) ∧
      (∀ e e' : Expression, e.postOrder = ts → e'.postOrder = ts → e = e') ∧
      (∀ e : Expression, e.postOrder = ts → 128 < e.need →
        postfixDepth ts = .error (.tooDeep e.need 128)) ∧
      (∀ position, FirstFault ts position → ∃ t, ts[position]? = some t ∧
        postfixDepth ts = .error
          (if t.arity = .structural then .unexpectedToken position
            else .missingOperand position)) ∧
      ((¬∃ e : Expression, e.postOrder = ts) → (¬∃ position, FirstFault ts position) →
        ∃ es : List Expression, es.flatMap postOrder = ts ∧
          (∀ es' : List Expression, es'.flatMap postOrder = ts → es' = es) ∧
          (es.length = 0 ∨ 2 ≤ es.length) ∧
          postfixDepth ts = .error (.unbalanced es.length)) := by
  refine ⟨fun d => postfixDepth_eq_ok_iff, fun e e' he he' => ?_, fun e he hneed => ?_,
    fun position hfault => ?_, fun htree hfault => ?_⟩
  · exact Expression.postOrder_injective (he.trans he'.symm)
  · rw [← he, postfixDepth_postOrder]
    exact if_neg (Nat.not_le.2 hneed)
  · obtain ⟨t, ht, hrun⟩ := hfault.run_eq
    exact ⟨t, ht, by rw [postfixDepth, hrun]⟩
  · obtain ⟨heights, hrun⟩ := Postfix.begins_iff_exists_run.1 (Postfix.begins_of_no_fault hfault)
    obtain ⟨es, hes, hcurrent⟩ := Postfix.exists_forest_of_run hrun
    have hlength : es.length ≠ 1 := by
      intro hone
      obtain ⟨e, rfl⟩ := List.length_eq_one_iff.1 hone
      exact htree ⟨e, by rw [← hes, List.flatMap_singleton]⟩
    refine ⟨es, hes, fun es' hes' => ?_, by omega, ?_⟩
    · exact Expression.flatMap_postOrder_injective (hes'.trans hes.symm)
    · rw [postfixDepth, hrun, ← hcurrent]
      exact if_pos (hcurrent ▸ hlength)

/-- In infix order the operator comes before its second operand. -/
theorem postfixDepth_exact_early_operator :
    let ts : List Token := [.atom (.input 0), .binary .add, .atom (.input 1)]
    FirstFault ts 1 ∧ ∃ t, ts[1]? = some t ∧
      postfixDepth ts = .error
        (if t.arity = .structural then .unexpectedToken 1 else .missingOperand 1) := by
  intro ts
  have hfault : FirstFault ts 1 := by
    refine ⟨fun k hk => ?_, fun hbegins => ?_⟩
    · rcases Nat.le_one_iff_eq_zero_or_eq_one.1 hk with rfl | rfl
      · exact Postfix.begins_flatMap_postOrder []
      · exact Postfix.begins_flatMap_postOrder [.leaf (.input 0)]
    · obtain ⟨_, hrun⟩ := Postfix.begins_iff_exists_run.1 hbegins
      cases hrun
  obtain ⟨-, -, -, hreport, -⟩ := postfixDepth_exact ts
  exact ⟨hfault, hreport 1 hfault⟩

end Bytebeat
