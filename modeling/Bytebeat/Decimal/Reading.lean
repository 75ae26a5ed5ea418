/-!
# Reading decimal numbers

The grammar is an optional sign before either a name (`inf`, `infinity` or
`nan` in any case) or digits with at most one point and an optional exponent;
there is at least one digit on one side of the point. The value is the double
nearest to the number written, ties to even.
-/

namespace Bytebeat

/-- The number `digits * 10 ^ exponent`. -/
structure Decimal where
  digits : Nat
  exponent : Int
  deriving DecidableEq, Repr

namespace Decimal

def toFloat (d : Decimal) : Float :=
  Float.ofScientific d.digits (d.exponent < 0) d.exponent.natAbs

def ofDigits (ds : List Char) : Nat :=
  ds.foldl (fun n c => 10 * n + (c.toNat - '0'.toNat)) 0

/-- The exponent at the end of a number: nothing, or `e`, a sign and digits. -/
def readExponent? : List Char → Option Int
  | [] => some 0
  | c :: cs =>
    if c == 'e' || c == 'E' then
      let (negative, ds) :=
        match cs with
        | '-' :: ds => (true, ds)
        | '+' :: ds => (false, ds)
        | ds => (false, ds)
      if ds.isEmpty || !ds.all Char.isDigit then none
      else some (if negative then -(ofDigits ds : Int) else ofDigits ds)
    else none

def read? (cs : List Char) : Option Decimal :=
  let whole := cs.takeWhile Char.isDigit
  let rest := cs.dropWhile Char.isDigit
  let (fraction, rest) :=
    match rest with
    | '.' :: rest => (rest.takeWhile Char.isDigit, rest.dropWhile Char.isDigit)
    | rest => ([], rest)
  if whole.isEmpty && fraction.isEmpty then none
  else
    (readExponent? rest).map fun e =>
      ⟨ofDigits (whole ++ fraction), e - fraction.length⟩

/-- The double nearest to `d`, found without writing out a power of ten that is far beyond the
range of doubles. -/
def toFloatBounded (d : Decimal) : Float :=
  let order := d.exponent + (Nat.log2 d.digits / 3 : Nat)
  if d.digits = 0 then 0
  else if 400 < d.exponent then 1 / 0
  else if order < -400 then 0
  else d.toFloat

def readMagnitude? (cs : List Char) : Option Float :=
  let name := String.ofList (cs.map Char.toLower)
  if name == "inf" || name == "infinity" then some (1 / 0)
  else if name == "nan" then some (0 / 0)
  else (read? cs).map toFloatBounded

def readFloat? : List Char → Option Float
  | '-' :: cs => (readMagnitude? cs).map Float.neg
  | '+' :: cs => readMagnitude? cs
  | cs => readMagnitude? cs

end Decimal

end Bytebeat
