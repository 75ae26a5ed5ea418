import Bytebeat.Decimal.Reading
import Bytebeat.Double.Parts

/-!
# Shortest decimal text

The text of a double has the fewest digits that read back to it, and of those
the digits nearest to it; of two equally near the larger is taken. Numbers are
written positionally whatever their size, a whole number without a point.
-/

namespace Bytebeat.Decimal

open Double (Parts)

/-! ## Layout -/

/-- The positional text of a decimal. -/
def layout (d : Decimal) : List Char :=
  let digits := Nat.toDigits 10 d.digits
  if d.digits = 0 ∧ 0 ≤ d.exponent then ['0']
  else if 0 ≤ d.exponent then digits ++ List.replicate d.exponent.toNat '0'
  else
    let places := d.exponent.natAbs
    let padded := List.replicate (places + 1 - digits.length) '0' ++ digits
    let whole := padded.length - places
    padded.take whole ++ '.' :: padded.drop whole

/-- Whether the text of `d` reads as `x`. -/
def readsAs (x : Float) (d : Decimal) : Bool := readMagnitude? d.layout = some x

/-- Moves trailing zeros of the digits into the exponent, at most `fuel` of them. -/
def stripZeros : (fuel : Nat) → Decimal → Decimal
  | 0, d => d
  | fuel + 1, d =>
    if d.digits ≠ 0 ∧ d.digits % 10 = 0 then stripZeros fuel ⟨d.digits / 10, d.exponent + 1⟩
    else d

/-! ## Selection -/

/-- The numerator and denominator of the magnitude of `p`. -/
def fractionOf (p : Parts) : Nat × Nat :=
  (p.mantissa <<< p.exponent.toNat, 1 <<< (-p.exponent).toNat)

def width (n : Nat) : Nat := (Nat.toDigits 10 n).length

/-- The least `k` with `num / den < 10 ^ k`, for a nonzero fraction whose denominator is a power
of two. -/
def scale (num den : Nat) : Int :=
  if den ≤ num then width (num / den) else 1 - width (den / num)

/-- The greatest multiple of `10 ^ exponent` up to `num / den`. -/
def floorOn (exponent : Int) (num den : Nat) : Decimal :=
  ⟨num * Nat.pow 10 (-exponent).toNat / (den * Nat.pow 10 exponent.toNat), exponent⟩

/-- Whether `num / den` is nearer to `d` than to the next multiple of its power of ten. -/
def nearerBelow (d : Decimal) (num den : Nat) : Bool :=
  2 * num * Nat.pow 10 (-d.exponent).toNat <
    (2 * d.digits + 1) * den * Nat.pow 10 d.exponent.toNat

/-- The neighbour of `num / den` among the multiples of `10 ^ exponent` that `good` accepts: the
nearer if both are accepted, the upper if both are equally near. -/
def neighbour? (good : Decimal → Bool) (num den : Nat) (exponent : Int) : Option Decimal :=
  let floor := floorOn exponent num den
  let below := stripZeros 17 floor
  let above := stripZeros 17 ⟨floor.digits + 1, exponent⟩
  match good below, good above with
  | true, true => some (if nearerBelow floor num den then below else above)
  | true, false => some below
  | false, true => some above
  | false, false => none

def exactly (p : Parts) : Decimal :=
  if 0 ≤ p.exponent then ⟨p.mantissa <<< p.exponent.toNat, 0⟩
  else ⟨p.mantissa * Nat.pow 5 (-p.exponent).toNat, p.exponent⟩

/-- The shortest decimal for the magnitude of `p`. One to seventeen digits are tried; seventeen
always suffice. -/
def shortest (p : Parts) : Decimal :=
  if p.mantissa = 0 then ⟨0, 0⟩
  else
    let (num, den) := fractionOf p
    let good := readsAs ({ p with negative := false }).toFloat
    let top := scale num den
    let found := (List.range 17).findSome? fun n => neighbour? good num den (top - (n + 1 : Nat))
    found.getD (exactly p)

/-! ## Text -/

/-- The text of a double whose finite values are written as `magnitude` writes them. -/
def textBy (magnitude : Parts → Decimal) (x : Float) : String :=
  match Parts.ofFloat? x with
  | none => if x.isNaN then "NaN" else if x < 0 then "-inf" else "inf"
  | some p => String.ofList ((if p.negative then ['-'] else []) ++ (magnitude p).layout)

def text (x : Float) : String := textBy shortest x

end Bytebeat.Decimal
