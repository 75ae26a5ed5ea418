/-!
# Equality up to rounding

Two doubles count as equal if they are, or if they differ by no more than one
unit in the last place of the larger, with a fixed allowance near zero.
-/

namespace Bytebeat.Double

/-- The least positive normal double, `2 ^ -1022`. -/
def minNormal : Float := Float.ofBits 0x0010000000000000

/-- The distance from one to the next double, `2 ^ -52`. -/
def epsilon : Float := Float.ofBits 0x3CB0000000000000

/-- The larger of two doubles; an operand that is not a number gives way to the other. -/
def larger (a b : Float) : Float :=
  if a.isNaN then b else if b.isNaN then a else if a < b then b else a

/-- Equality within a relative tolerance of `epsilon` and an absolute one of `minNormal`. -/
def nearlyEqual (a b : Float) : Bool :=
  let gap := (a - b).abs
  a == b || gap ≤ minNormal || gap ≤ epsilon * larger a.abs b.abs

end Bytebeat.Double
