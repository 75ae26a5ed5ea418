import Bytebeat.Token

/-!
# Postfix order

A list of tokens is in postfix order if running it on a stack never lacks an
operand and ends with one value. `postfixDepth` checks this by counting and
answers with the greatest height the stack reaches.
-/

namespace Bytebeat

inductive SyntaxError where
  /-- The operator at `position` finds too few operands. -/
  | missingOperand (position : Nat)
  /-- The expression ends with `height` values, not one. -/
  | unbalanced (height : Nat)
  /-- The token at `position` has no place in postfix order. -/
  | unexpectedToken (position : Nat)
  /-- A parenthesis lacks its partner. -/
  | mismatchedParenthesis
  /-- The stack would reach `height`, above `limit`. -/
  | tooDeep (height limit : Nat)
  deriving DecidableEq, Repr

def SyntaxError.message : SyntaxError → String
  | missingOperand position => s!"missing operand for token {position}"
  | unbalanced height => s!"expression leaves {height} values instead of one"
  | unexpectedToken position => s!"unexpected token {position} in postfix form"
  | mismatchedParenthesis => "mismatched parentheses"
  | tooDeep height limit => s!"expression needs stack depth {height} (limit {limit})"

/-- The greatest stack height a program may need. -/
def maxStackDepth : Nat := 128

namespace Postfix

/-- The height of the stack and the greatest so far. -/
structure Heights where
  current : Nat := 0
  greatest : Nat := 0
  deriving DecidableEq, Repr

/-- The heights after the token at `position`. -/
def step (position : Nat) (t : Token) (h : Heights) : Except SyntaxError Heights :=
  match t.arity with
  | .nullary => .ok ⟨h.current + 1, max h.greatest (h.current + 1)⟩
  | .unary => if h.current < 1 then .error (.missingOperand position) else .ok h
  | .binary =>
    if h.current < 2 then .error (.missingOperand position)
    else .ok { h with current := h.current - 1 }
  | .structural => .error (.unexpectedToken position)

theorem step_le {position : Nat} {t : Token} {h h' : Heights} (hs : step position t h = .ok h') :
    h'.current ≤ h.current + 1 ∧ h'.greatest ≤ max h.greatest (h.current + 1) := by
  unfold step at hs
  split at hs
  · cases hs
    exact ⟨Nat.le_refl _, Nat.le_refl _⟩
  · split at hs
    · cases hs
    · cases hs
      exact ⟨Nat.le_succ _, Nat.le_max_left _ _⟩
  · split at hs
    · cases hs
    · cases hs
      exact ⟨by simp only; omega, Nat.le_max_left _ _⟩
  · cases hs

def run (position : Nat) (h : Heights) : List Token → Except SyntaxError Heights
  | [] => .ok h
  | t :: ts =>
    match step position t h with
    | .ok h' => run (position + 1) h' ts
    | .error e => .error e

/-- No height exceeds the number of tokens, whatever the heights before them are. -/
theorem run_le {ts : List Token} :
    ∀ {position : Nat} {h h' : Heights}, run position h ts = .ok h' →
      h'.current ≤ h.current + ts.length ∧
        h'.greatest ≤ max h.greatest (h.current + ts.length) := by
  induction ts with
  | nil =>
    intro position h h' hrun
    cases hrun
    exact ⟨Nat.le_refl _, Nat.le_max_left _ _⟩
  | cons t ts ih =>
    intro position h h' hrun
    unfold run at hrun
    split at hrun
    · rename_i h₁ hs
      obtain ⟨hcurrent, hgreatest⟩ := ih hrun
      have hstep := step_le hs
      rw [List.length_cons]
      omega
    · cases hrun

end Postfix

/-- The stack height that `tokens` need, if they are in postfix order and it is within bounds. -/
def postfixDepth (tokens : List Token) : Except SyntaxError Nat :=
  match Postfix.run 0 {} tokens with
  | .error e => .error e
  | .ok h =>
    if h.current ≠ 1 then .error (.unbalanced h.current)
    else if maxStackDepth < h.greatest then .error (.tooDeep h.greatest maxStackDepth)
    else .ok h.greatest

end Bytebeat
