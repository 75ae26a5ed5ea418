import Bytebeat.Decimal.Shortest

/-!
# Decimal text with a fixed number of places

The exact value is rounded once to the given number of places; a value half
way between two neighbours goes to the even one.
-/

namespace Bytebeat.Decimal

open Double (Parts)

/-- The integer nearest to `num / den`, the even one of two equally near. -/
def roundHalfEven (num den : Nat) : Nat :=
  let q := num / den
  let r := num % den
  if 2 * r < den then q
  else if den < 2 * r then q + 1
  else if q % 2 = 0 then q else q + 1

/-- The decimal with `places` digits after the point that is nearest to the magnitude of `p`. -/
def rounded (places : Nat) (p : Parts) : Decimal :=
  let (num, den) := fractionOf p
  ⟨roundHalfEven (num * Nat.pow 10 places) den, -(places : Int)⟩

def fixedText (places : Nat) (x : Float) : String := textBy (rounded places) x

end Bytebeat.Decimal
