import Bytebeat.Decimal.Shortest
import Bytebeat.Token.Infix
import Bytebeat.Token.Lexer

/-!
# Programs

A program is an expression brought to postfix order, with its literals apart
and the stack height it needs. A text is first read as postfix; only if it is
none is it read as infix.
-/

namespace Bytebeat

inductive CompileError where
  | lexical (e : LexError)
  | grammatical (e : SyntaxError)
  deriving DecidableEq, Repr

namespace CompileError

def causeMessage : CompileError → String
  | lexical e => e.message
  | grammatical e => e.message

def message : CompileError → String
  | lexical e => "lex error: " ++ e.message
  | grammatical e => "syntax error: " ++ e.message

end CompileError

/-- An expression in postfix order. -/
structure Program where
  /-- The text it was compiled from. -/
  source : String := ""
  tokens : List Token := []
  /-- The values of the `number` tokens, in their order. -/
  literals : List Float := []
  /-- The stack height it needs. -/
  depth : Nat := 0
  deriving DecidableEq, BEq, Repr

namespace Program

/-- The program of silence. -/
def empty : Program := {}

def isEmpty (p : Program) : Bool := p.tokens.isEmpty

def usesRandom (p : Program) : Bool := p.tokens.contains (.atom .random)

/-- The words of `tokens`, the literals put in for the `number` tokens. -/
def words : List Token → List Float → List String
  | [], _ => []
  | .atom .number :: ts, vs => Decimal.text (vs.headD 0) :: words ts vs.tail
  | t :: ts, vs => t.spelling :: words ts vs

def text (p : Program) : String := " ".intercalate (words p.tokens p.literals)

/-- The postfix order of a token list in either notation, with its stack height. -/
def arrange (tokens : List Token) : Except SyntaxError (List Token × Nat) :=
  match postfixDepth tokens with
  | .ok depth => .ok (tokens, depth)
  | .error _ =>
    match postfixOfInfix tokens with
    | .error e => .error e
    | .ok converted => (postfixDepth converted).map (converted, ·)

/-- The program of an expression text; a text without tokens gives the empty program. -/
def compile (source : String) : Except CompileError Program :=
  match tokenize source with
  | .error e => .error (.lexical e)
  | .ok t =>
    if t.tokens.isEmpty then .ok { source }
    else
      match arrange t.tokens with
      | .error e => .error (.grammatical e)
      | .ok (tokens, depth) => .ok { source, tokens, literals := t.literals, depth }

end Program

end Bytebeat
