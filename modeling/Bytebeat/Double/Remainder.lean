import Bytebeat.Double.Parts

/-!
# The remainder of a truncated division

`remainder x y` is `x - n * y` for the integer `n` nearest to `x / y` on the
side of zero. It is exact, has the sign of `x` and is smaller than `y`.
-/

namespace Bytebeat.Double

/-- The remainder of two finite doubles, the second not zero: both are brought to the lesser of
the two exponents, where they are integers. -/
def Parts.remainder (x y : Parts) : Parts :=
  if x.exponent ≤ y.exponent then
    { x with mantissa := x.mantissa % (y.mantissa <<< (y.exponent - x.exponent).toNat) }
  else
    { x with
      mantissa := x.mantissa <<< (x.exponent - y.exponent).toNat % y.mantissa
      exponent := y.exponent }

/-- The remainder of `x` by `y`: nothing is left of an infinite `x` or by a zero `y`, and an
infinite `y` leaves `x` as it is. -/
def remainder (x y : Float) : Float :=
  if x.isNaN || y.isNaN then 0 / 0
  else
    match Parts.ofFloat? x, Parts.ofFloat? y with
    | none, _ => 0 / 0
    | some _, none => x
    | some p, some q => if q.mantissa = 0 then 0 / 0 else (p.remainder q).toFloat

end Bytebeat.Double
