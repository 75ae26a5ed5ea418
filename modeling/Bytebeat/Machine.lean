import Bytebeat.Arithmetic
import Bytebeat.Inputs
import Bytebeat.Program
import Bytebeat.Random

/-!
# The stack machine

An evaluator runs one program after another on a stack of fixed size. A run
starts with no values on the stack, but what earlier runs left in it is not
cleared; only the height tells which places hold values. The machine stops
short, with no state, where it would reach beyond the places it may use or
beyond the literals; compiled programs never make it stop.
-/

namespace Bytebeat

/-- What lasts from one evaluation to the next. -/
structure Evaluator where
  stack : Vector Float maxStackDepth
  random : Generator
  deriving DecidableEq, BEq, Repr

/-- The machine between two tokens. -/
structure Machine extends Evaluator where
  /-- The number of values on the stack; the top is the last of them. -/
  height : Nat := 0
  /-- The number of literals read. -/
  cursor : Nat := 0
  deriving DecidableEq, BEq, Repr

namespace Machine

/-- The `n`th value from the top, the top being the first. -/
def operand (n : Nat) (m : Machine) : Float := m.stack[m.height - n]?.getD 0

/-- Puts `v` in the place of the `n` topmost values. -/
def replace (n : Nat) (v : Float) (m : Machine) : Machine :=
  { m with stack := m.stack.setIfInBounds (m.height - n) v, height := m.height - n + 1 }

/-- Puts `v` on a stack with room for `capacity` values. -/
def push (capacity : Nat) (v : Float) (m : Machine) : Option Machine :=
  if m.height < capacity then some (m.replace 0 v) else none

def load (p : Program) (inputs : Inputs) (a : Atom) (m : Machine) : Option Machine :=
  match a with
  | .number =>
    match p.literals[m.cursor]? with
    | some v => { m with cursor := m.cursor + 1 }.push p.depth v
    | none => none
  | .random => { m with random := m.random.next }.push p.depth m.random.draw
  | .pi => m.push p.depth Constant.pi
  | .twoPi => m.push p.depth Constant.twoPi
  | .halfPi => m.push p.depth Constant.halfPi
  | .e => m.push p.depth Constant.e
  | .reading r => m.push p.depth (inputs.globals.get r)
  | .input c => m.push p.depth (inputs.channels.get c)

/-- Runs one token of a program. Marks of structure do nothing. -/
def step (p : Program) (inputs : Inputs) (m : Machine) : Token → Option Machine
  | .atom a => m.load p inputs a
  | .unary op => if 1 ≤ m.height then some (m.replace 1 (op.apply (m.operand 1))) else none
  | .binary op =>
    if 2 ≤ m.height then some (m.replace 2 (op.apply (m.operand 2) (m.operand 1))) else none
  | .leftParen | .rightParen | .invalid => some m

def run (p : Program) (inputs : Inputs) (m : Machine) : List Token → Option Machine
  | [] => some m
  | t :: ts =>
    match m.step p inputs t with
    | some m' => m'.run p inputs ts
    | none => none

end Machine

namespace Evaluator

/-- An evaluator that draws from `random`, its stack all zero. -/
def ofGenerator (random : Generator) : Evaluator where
  stack := .replicate maxStackDepth 0
  random

/-- What is heard of a value: itself if it is finite, else zero. -/
def settle (v : Float) : Float := if v.isFinite then v else 0

/-- The machine that has run `p`. The program may use the first `p.depth` places of the stack; the
stack has to have them, and among them the place of the result. -/
def run? (e : Evaluator) (p : Program) (inputs : Inputs) : Option Machine :=
  if 0 < p.depth ∧ p.depth ≤ maxStackDepth then
    Machine.run p inputs { toEvaluator := e } p.tokens
  else none

/-- The value of a program, with the evaluator as the run leaves it. The empty program is worth
zero, and so is a value that is not finite. -/
def evaluate (e : Evaluator) (p : Program) (inputs : Inputs) : Float × Evaluator :=
  if p.isEmpty then (0, e)
  else
    match e.run? p inputs with
    | some m => (settle (m.stack[0]?.getD 0), m.toEvaluator)
    | none => (0, e)

end Evaluator

namespace Program

/-- The value of a program on a stack of its own, with the generator as the run leaves it. -/
def evaluate (p : Program) (inputs : Inputs) (g : Generator) : Float × Generator :=
  let (value, e) := (Evaluator.ofGenerator g).evaluate p inputs
  (value, e.random)

/-- The seed of an evaluation that is given none. -/
def defaultSeed : UInt64 := 0x6279746567726170

end Program

end Bytebeat
