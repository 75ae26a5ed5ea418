import Bytebeat.Token.Postfix

/-!
# Infix order

`postfixOfInfix` brings tokens from infix to postfix order. Operands pass
straight through; operators and opening parentheses wait on a stack until an
operator that binds no tighter, a closing parenthesis or the end releases
them. The result is not checked here.
-/

namespace Bytebeat

namespace Infix

/-- Whether the operator `top`, waiting, is emitted before `incoming` starts to wait. -/
def yields (top incoming : Token) : Bool :=
  top != .leftParen &&
    (top.precedence < incoming.precedence ||
      (top.precedence == incoming.precedence && incoming.associativity == .left))

/-- The state of a conversion: the output, latest token first, the tokens that wait, latest
first, and whether an operand is expected next. -/
structure State where
  output : List Token := []
  waiting : List Token := []
  expectsOperand : Bool := true
  deriving DecidableEq, Repr

/-- A minus sign where an operand is expected is a negation. -/
def State.read (s : State) (t : Token) : Token :=
  if t = .binary .subtract ∧ s.expectsOperand then .unary .negate else t

/-- Emits the waiting tokens that yield to `incoming`. -/
def releaseFor (incoming : Token) : List Token → List Token → List Token × List Token
  | output, [] => (output, [])
  | output, top :: waiting =>
    if yields top incoming then releaseFor incoming (top :: output) waiting
    else (output, top :: waiting)

/-- Emits the waiting tokens down to an opening parenthesis, which is dropped; `none` if there
is no such parenthesis. -/
def closeParen? : List Token → List Token → Option (List Token × List Token)
  | _, [] => none
  | output, top :: waiting =>
    if top = .leftParen then some (output, waiting) else closeParen? (top :: output) waiting

/-- Emits all waiting tokens; `none` if an opening parenthesis is among them. -/
def finish? : List Token → List Token → Option (List Token)
  | output, [] => some output
  | output, top :: waiting =>
    if top = .leftParen then none else finish? (top :: output) waiting

def State.step (position : Nat) (t : Token) (s : State) : Except SyntaxError State :=
  let t := s.read t
  match t with
  | .invalid => .error (.unexpectedToken position)
  | .atom _ => .ok { s with output := t :: s.output, expectsOperand := false }
  | .leftParen | .unary _ => .ok { s with waiting := t :: s.waiting, expectsOperand := true }
  | .binary _ =>
    let (output, waiting) := releaseFor t s.output s.waiting
    .ok ⟨output, t :: waiting, true⟩
  | .rightParen =>
    match closeParen? s.output s.waiting with
    | some (output, waiting) => .ok ⟨output, waiting, false⟩
    | none => .error .mismatchedParenthesis

def State.run (position : Nat) (s : State) : List Token → Except SyntaxError State
  | [] => .ok s
  | t :: ts =>
    match s.step position t with
    | .ok s' => s'.run (position + 1) ts
    | .error e => .error e

end Infix

/-- The tokens of an infix expression in postfix order. -/
def postfixOfInfix (tokens : List Token) : Except SyntaxError (List Token) :=
  match Infix.State.run 0 {} tokens with
  | .error e => .error e
  | .ok s =>
    match Infix.finish? s.output s.waiting with
    | some output => .ok output.reverse
    | none => .error .mismatchedParenthesis

end Bytebeat
