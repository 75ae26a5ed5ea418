/-!
# Truncation to an integer

Dropping the fraction of a double. What lies beyond the bounds becomes the
nearer bound, and not-a-number becomes zero.
-/

namespace Bytebeat.Double

/-- The integer part of `x`, kept within `lo` and `hi`, whose magnitudes are below `2 ^ 64`. -/
def truncate (lo hi : Int) (x : Float) : Int :=
  let magnitude : Int := x.abs.toUInt64.toNat
  max lo (min hi (if x < 0 then -magnitude else magnitude))

def toInt32 (x : Float) : Int32 :=
  Int32.ofInt (truncate Int32.minValue.toInt Int32.maxValue.toInt x)

def toInt64 (x : Float) : Int64 :=
  Int64.ofInt (truncate Int64.minValue.toInt Int64.maxValue.toInt x)

theorem truncate_le {lo hi : Int} (h : lo ≤ hi) (x : Float) : truncate lo hi x ≤ hi := by
  simp only [truncate]
  omega

theorem le_truncate (lo hi : Int) (x : Float) : lo ≤ truncate lo hi x := by
  simp only [truncate]
  omega

end Bytebeat.Double
