/-!
# Random numbers

The xoshiro256++ generator on four words, seeded from one word by successive
outputs of SplitMix64. All arithmetic is modulo `2 ^ 64`.
-/

namespace Bytebeat

/-- The four words of a xoshiro256++ generator. -/
structure Generator where
  s0 : UInt64
  s1 : UInt64
  s2 : UInt64
  s3 : UInt64
  deriving DecidableEq, Repr

namespace Generator

def rotateLeft (x k : UInt64) : UInt64 := (x <<< k) ||| (x >>> (64 - k))

/-- The amount by which SplitMix64 moves its state at each output. -/
def splitMixStep : UInt64 := 0x9e3779b97f4a7c15

/-- The SplitMix64 output at a state. -/
def splitMix (state : UInt64) : UInt64 :=
  let z := (state ^^^ (state >>> 30)) * 0xbf58476d1ce4e5b9
  let z := (z ^^^ (z >>> 27)) * 0x94d049bb133111eb
  z ^^^ (z >>> 31)

/-- The generator whose words are the first four SplitMix64 outputs from `seed`. -/
def ofSeed (seed : UInt64) : Generator where
  s0 := splitMix (seed + splitMixStep)
  s1 := splitMix (seed + 2 * splitMixStep)
  s2 := splitMix (seed + 3 * splitMixStep)
  s3 := splitMix (seed + 4 * splitMixStep)

def output (g : Generator) : UInt64 := rotateLeft (g.s0 + g.s3) 23 + g.s0

def next (g : Generator) : Generator :=
  let s2 := g.s2 ^^^ g.s0
  let s3 := g.s3 ^^^ g.s1
  { s0 := g.s0 ^^^ s3
    s1 := g.s1 ^^^ s2
    s2 := s2 ^^^ (g.s1 <<< 17)
    s3 := rotateLeft s3 45 }

/-- A double in `[0, 1)` from the 53 leading bits of the output. -/
def draw (g : Generator) : Float := (g.output >>> 11).toFloat * Float.ofBits 0x3CA0000000000000

end Generator

end Bytebeat
