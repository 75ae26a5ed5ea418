import Bytebeat.Machine

/-!
# Live expressions

An expression that is edited while it plays. A text that does not compile is
refused and leaves the sound as it was; one evaluator runs all the programs,
so that the random generator runs on across changes of program.
-/

namespace Bytebeat

/-- The last program that compiled, and the evaluator it runs on. -/
structure LiveExpression where
  program : Program := .empty
  evaluator : Evaluator := .ofGenerator (.ofSeed Program.defaultSeed)
  /-- Whether the latest text compiled. -/
  isValid : Bool := true
  deriving BEq, Repr

namespace LiveExpression

def update (x : LiveExpression) (text : String) : LiveExpression :=
  match Program.compile text with
  | .ok program => { x with program, isValid := true }
  | .error _ => { x with isValid := false }

def process (x : LiveExpression) (inputs : Inputs) : Float × LiveExpression :=
  let (value, evaluator) := x.evaluator.evaluate x.program inputs
  (value, { x with evaluator })

end LiveExpression

end Bytebeat
