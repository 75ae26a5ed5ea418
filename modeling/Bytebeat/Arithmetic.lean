import Bytebeat.Double.Closeness
import Bytebeat.Double.CubeRoot
import Bytebeat.Double.Remainder
import Bytebeat.Double.Truncation
import Bytebeat.Token

/-!
# The meaning of operators

Bitwise and logical operators work on 32-bit integers, to which their operands
are truncated; shifts take their amount modulo 32. Comparisons other than `<`
and `>` allow for rounding. Truth is written as one and zero.
-/

namespace Bytebeat

open Double (cubeRoot nearlyEqual remainder toInt32)

/-! ## Constants -/

def Constant.pi : Float := Float.ofBits 0x400921FB54442D18

def Constant.twoPi : Float := Float.ofBits 0x401921FB54442D18

def Constant.halfPi : Float := Float.ofBits 0x3FF921FB54442D18

def Constant.e : Float := Float.ofBits 0x4005BF0A8B145769

/-! ## Operators -/

def truth (b : Bool) : Float := if b then 1 else 0

/-- An integer operation as an operation on doubles. -/
def onIntegers (f : Int32 → Int32 → Int32) (x y : Float) : Float :=
  Float.ofInt (f (toInt32 x) (toInt32 y)).toInt

/-- Whether the integer part of `x` is not zero. -/
def holds (x : Float) : Bool := toInt32 x != 0

def UnaryOp.apply (op : UnaryOp) (x : Float) : Float :=
  match op with
  | negate => -x
  | bitNot => Float.ofInt (~~~(toInt32 x)).toInt
  | not => truth !(holds x)
  | sqrt => x.sqrt
  | cbrt => cubeRoot x
  | exp => x.exp
  | exp2 => x.exp2
  | log => x.log
  | log2 => x.log2
  | log10 => x.log10
  | abs => x.abs
  | sin => x.sin
  | cos => x.cos
  | tan => x.tan
  | asin => x.asin
  | acos => x.acos
  | atan => x.atan

def BinaryOp.apply (op : BinaryOp) (x y : Float) : Float :=
  match op with
  | add => x + y
  | subtract => x - y
  | multiply => x * y
  | divide => x / y
  | modulo => remainder x y
  | bitAnd => onIntegers (· &&& ·) x y
  | bitOr => onIntegers (· ||| ·) x y
  | bitXor => onIntegers (· ^^^ ·) x y
  | shiftLeft => onIntegers (· <<< ·) x y
  | shiftRight => onIntegers (· >>> ·) x y
  | and => truth (holds x && holds y)
  | or => truth (holds x || holds y)
  | equal => truth (nearlyEqual x y)
  | notEqual => truth !(nearlyEqual x y)
  | less => truth (x < y)
  | lessOrEqual => truth (x < y || nearlyEqual x y)
  | greater => truth (x > y)
  | greaterOrEqual => truth (x > y || nearlyEqual x y)
  | power => x.pow y

end Bytebeat
