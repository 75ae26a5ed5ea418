/-!
# The parts of a double

A finite double is a sign and an exact value `mantissa * 2 ^ exponent`.
`Parts.ofFloat?` reads them off the bits, `Parts.toFloat` writes them back.
-/

namespace Bytebeat.Double

/-- A sign and the magnitude `mantissa * 2 ^ exponent`. -/
structure Parts where
  negative : Bool
  mantissa : Nat
  exponent : Int
  deriving DecidableEq, Repr

def minExponent : Int := -1074

/-- The weight of the leading bit of a normal double's mantissa. -/
def leadingBit : Nat := 1 <<< 52

namespace Parts

/-- The parts of a finite double; `none` for the infinities and not-a-number. -/
def ofFloat? (x : Float) : Option Parts :=
  let bits := x.toBits.toNat
  let negative := bits >>> 63 == 1
  let biased := bits / leadingBit % 2048
  let fraction := bits % leadingBit
  if biased == 2047 then none
  else if biased == 0 then some ⟨negative, fraction, minExponent⟩
  else some ⟨negative, leadingBit + fraction, minExponent + (biased - 1 : Nat)⟩

/-- Moves the leading bit of a nonzero mantissa to the weight of a normal double, as far as the
least exponent allows. -/
def normalize (p : Parts) : Parts :=
  let room := (p.exponent - minExponent).toNat
  let shift := min (52 - p.mantissa.log2) room
  { p with mantissa := p.mantissa <<< shift, exponent := p.exponent - shift }

/-- The double with the given parts, exact for a mantissa below `2 ^ 53` and an exponent that a
double has. -/
def toFloat (p : Parts) : Float :=
  let sign := if p.negative then 1 <<< 63 else 0
  if p.mantissa = 0 then Float.ofBits (UInt64.ofNat sign)
  else
    let q := p.normalize
    let biased := if q.mantissa < leadingBit then 0 else (q.exponent - minExponent).toNat + 1
    Float.ofBits (UInt64.ofNat (sign + biased * leadingBit + q.mantissa % leadingBit))

end Parts

end Bytebeat.Double
