import Bytebeat.Double.Truncation

/-!
# Audio frames

A frame is a pair of 16-bit samples. Expressions are heard through their low
byte, which spans the range from `-1` up to `1`.
-/

namespace Bytebeat

structure Frame where
  left : Int16
  right : Int16
  deriving DecidableEq, Repr

/-- Maps the low byte of the integer part of `v` onto the range from `-1` up to `1`. -/
def byteToUnit (v : Float) : Float :=
  Float.ofInt ((Double.toInt64 v).toInt % 256) / 128 - 1

/-- The loudest sample on either side of silence. -/
def fullScale : Int := 32767

/-- The sample for a value of the range from `-1` to `1`; what lies beyond is clipped. -/
def sampleOfUnit (v : Float) : Int16 :=
  Int16.ofInt (Double.truncate (-fullScale) fullScale (v * Float.ofInt fullScale))

namespace Frame

def silence : Frame := ⟨0, 0⟩

def mono (sample : Int16) : Frame := ⟨sample, sample⟩

def ofUnit (left right : Float) : Frame := ⟨sampleOfUnit left, sampleOfUnit right⟩

end Frame

end Bytebeat
