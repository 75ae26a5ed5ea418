import Bytebeat.Double.Parts

/-!
# Cube roots

`cubeRoot x` is the double nearest to the cube root of `x`. The mantissa is
widened until its integer cube root has at least two bits more than a double
keeps; the root never lies half way between two doubles, so the bits kept
decide the rounding.
-/

namespace Bytebeat.Double

/-- Adds to `root` the powers of two below `2 ^ bits`, greatest first, that keep its cube within
`n`. -/
def refineRoot (n : Nat) : Nat → Nat → Nat
  | 0, root => root
  | bits + 1, root =>
    let raised := root + 1 <<< bits
    refineRoot n bits (if raised * raised * raised ≤ n then raised else root)

/-- The greatest integer whose cube is at most `n`. -/
def floorCubeRoot (n : Nat) : Nat := refineRoot n (n.log2 / 3 + 1) 0

def Parts.cubeRoot (p : Parts) : Parts :=
  let shift := 165 + ((p.exponent - 165) % 3).toNat
  let root := floorCubeRoot (p.mantissa <<< shift)
  let dropped := root.log2 - 52
  let rounded := (root + 1 <<< (dropped - 1)) >>> dropped
  let exponent := (p.exponent - shift) / 3 + dropped
  if rounded = 2 * leadingBit then { p with mantissa := leadingBit, exponent := exponent + 1 }
  else { p with mantissa := rounded, exponent }

/-- The cube root of `x`; zeros, infinities and not-a-number are their own. -/
def cubeRoot (x : Float) : Float :=
  match Parts.ofFloat? x with
  | none => x
  | some p => if p.mantissa = 0 then x else p.cubeRoot.toFloat

end Bytebeat.Double
