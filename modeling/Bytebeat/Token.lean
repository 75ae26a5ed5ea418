/-!
# Tokens

The vocabulary of expressions. A token is an operand (`Atom`), a prefix
operator, a binary operator or a mark of structure; the constructor says how
many operands it takes. Precedence follows the C convention: the lower number
binds tighter.
-/

namespace Bytebeat

/-- The clock readings an expression can name. -/
inductive Reading where
  | freeSeconds
  | freeSamples
  | positionSeconds
  | positionSamples
  | noteSeconds
  | noteSamples
  | notePhase
  | byteTime
  | noteFrequency
  | sampleRate
  | beatsPerSecond
  deriving DecidableEq, Repr

/-- Tokens that stand for one value. -/
inductive Atom where
  /-- A literal; its value stands in the program's table of literals. -/
  | number
  | pi
  | twoPi
  | halfPi
  | e
  | random
  | reading (r : Reading)
  | input (channel : Fin 4)
  deriving DecidableEq, Repr

inductive UnaryOp where
  | negate
  | bitNot
  | not
  | sqrt
  | cbrt
  | exp
  | exp2
  | log
  | log2
  | log10
  | abs
  | sin
  | cos
  | tan
  | asin
  | acos
  | atan
  deriving DecidableEq, Repr

inductive BinaryOp where
  | add
  | subtract
  | multiply
  | divide
  | modulo
  | bitAnd
  | bitOr
  | bitXor
  | shiftLeft
  | shiftRight
  | and
  | or
  | equal
  | notEqual
  | less
  | lessOrEqual
  | greater
  | greaterOrEqual
  | power
  deriving DecidableEq, Repr

inductive Token where
  | atom (a : Atom)
  | unary (op : UnaryOp)
  | binary (op : BinaryOp)
  | leftParen
  | rightParen
  /-- No token of the language: what an unknown spelling is classified as. -/
  | invalid
  deriving DecidableEq, Repr

inductive Arity where
  | nullary
  | unary
  | binary
  /-- Neither operand nor operator. -/
  | structural
  deriving DecidableEq, Repr

/-- Which of two operators of equal precedence takes the operand between them. -/
inductive Associativity where
  | none
  | left
  | right
  deriving DecidableEq, Repr

/-- The change in stack height when a token of this arity runs. -/
def Arity.stackEffect? : Arity → Option Int
  | nullary => some 1
  | unary => some 0
  | binary => some (-1)
  | structural => none

def Reading.spelling : Reading → String
  | freeSeconds => "fs"
  | freeSamples => "f"
  | positionSeconds => "ps"
  | positionSamples => "p"
  | noteSeconds => "rs"
  | noteSamples => "r"
  | notePhase => "n"
  | byteTime => "t"
  | noteFrequency => "nf"
  | sampleRate => "sr"
  | beatsPerSecond => "bps"

def Atom.spelling : Atom → String
  | number => ""
  | pi => "pi"
  | twoPi => "twoPi"
  | halfPi => "halfPi"
  | e => "e"
  | random => "rand"
  | reading r => r.spelling
  | input 0 => "a"
  | input 1 => "b"
  | input 2 => "c"
  | input 3 => "d"

def UnaryOp.spelling : UnaryOp → String
  | negate => "_"
  | bitNot => "~"
  | not => "!"
  | sqrt => "sqrt"
  | cbrt => "cbrt"
  | exp => "exp"
  | exp2 => "exp2"
  | log => "log"
  | log2 => "log2"
  | log10 => "log10"
  | abs => "abs"
  | sin => "sin"
  | cos => "cos"
  | tan => "tan"
  | asin => "asin"
  | acos => "acos"
  | atan => "atan"

namespace BinaryOp

def spelling : BinaryOp → String
  | add => "+"
  | subtract => "-"
  | multiply => "*"
  | divide => "/"
  | modulo => "%"
  | bitAnd => "&"
  | bitOr => "|"
  | bitXor => "^"
  | shiftLeft => "<<"
  | shiftRight => ">>"
  | and => "&&"
  | or => "||"
  | equal => "=="
  | notEqual => "!="
  | less => "<"
  | lessOrEqual => "<="
  | greater => ">"
  | greaterOrEqual => ">="
  | power => "**"

def precedence : BinaryOp → Nat
  | power => 3
  | multiply | divide | modulo => 5
  | add | subtract => 6
  | shiftLeft | shiftRight => 7
  | less | lessOrEqual | greater | greaterOrEqual => 9
  | equal | notEqual => 10
  | bitAnd => 11
  | bitXor => 12
  | bitOr => 13
  | and => 14
  | or => 15

def associativity : BinaryOp → Associativity
  | power => .right
  | _ => .left

end BinaryOp

namespace Token

def arity : Token → Arity
  | atom _ => .nullary
  | unary _ => .unary
  | binary _ => .binary
  | leftParen | rightParen | invalid => .structural

def precedence : Token → Nat
  | unary _ => 2
  | binary op => op.precedence
  | _ => 0

def associativity : Token → Associativity
  | unary _ => .right
  | binary op => op.associativity
  | _ => .none

/-- The text a token is written with; empty for a literal and for `invalid`. -/
def spelling : Token → String
  | atom a => a.spelling
  | unary op => op.spelling
  | binary op => op.spelling
  | leftParen => "("
  | rightParen => ")"
  | invalid => ""

/-- The spelling, or a description where there is none. -/
def display : Token → String
  | atom .number => "<number>"
  | invalid => "<invalid>"
  | t => t.spelling

/-- Whether a token can stand in a compiled program. -/
def isExecutable (t : Token) : Bool := t.arity != .structural

/-- The vocabulary in its listed order. -/
def all : List Token :=
  [unary .negate,
   binary .add, binary .subtract, binary .multiply, binary .divide, binary .modulo,
   unary .bitNot, binary .bitAnd, binary .bitOr, binary .bitXor,
   binary .shiftLeft, binary .shiftRight,
   unary .not, binary .and, binary .or,
   binary .equal, binary .notEqual, binary .less, binary .lessOrEqual,
   binary .greater, binary .greaterOrEqual,
   binary .power,
   unary .sqrt, unary .cbrt,
   unary .exp, unary .exp2, unary .log, unary .log2, unary .log10,
   unary .abs,
   unary .sin, unary .cos, unary .tan, unary .asin, unary .acos, unary .atan,
   atom .number, atom .pi, atom .twoPi, atom .halfPi, atom .e, atom .random,
   atom (.reading .freeSeconds), atom (.reading .freeSamples),
   atom (.reading .positionSeconds), atom (.reading .positionSamples),
   atom (.reading .noteSeconds), atom (.reading .noteSamples),
   atom (.reading .notePhase), atom (.reading .byteTime),
   atom (.reading .noteFrequency), atom (.reading .sampleRate),
   atom (.reading .beatsPerSecond),
   atom (.input ⟨0, by decide⟩), atom (.input ⟨1, by decide⟩),
   atom (.input ⟨2, by decide⟩), atom (.input ⟨3, by decide⟩),
   leftParen, rightParen, invalid]

def index (t : Token) : Nat := all.idxOf t

def ofSpelling? (text : String) : Option Token :=
  if text.isEmpty then none else all.find? (·.spelling == text)

end Token

end Bytebeat
