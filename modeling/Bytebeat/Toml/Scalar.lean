import Bytebeat.Decimal.Reading
import Bytebeat.Toml.Value

/-!
# Unquoted TOML values

Numbers, truth values and points in time, each read from the whole word it
stands in. Integers have 64 bits; a float too large for a double is refused;
points in time have to exist in the calendar.
-/

namespace Bytebeat.Toml.Scalar

def dropSign : List Char → List Char
  | '+' :: cs => cs
  | '-' :: cs => cs
  | cs => cs

/-- The digits of a word in which single underscores stand between digits. -/
def groups? (isDigit : Char → Bool) (cs : List Char) : Option (List Char) :=
  let parts := cs.splitOn '_'
  if parts.all fun part => !part.isEmpty && part.all isDigit then some parts.flatten else none

/-- The digits of a decimal integer, which has no leading zero. -/
def wholeDigits? (cs : List Char) : Option (List Char) :=
  match groups? Char.isDigit cs with
  | some ('0' :: _ :: _) => none
  | ds => ds

def digitValue (c : Char) : Nat :=
  if c.isDigit then c.toNat - '0'.toNat else c.toLower.toNat - 'a'.toNat + 10

def isDigitOf (base : Nat) (c : Char) : Bool :=
  (c.isDigit || ('a' ≤ c && c ≤ 'f') || ('A' ≤ c && c ≤ 'F')) && digitValue c < base

def readNat? (base : Nat) (cs : List Char) : Option Nat :=
  (groups? (isDigitOf base) cs).map (·.foldl (fun n c => base * n + digitValue c) 0)

def bounded? (n : Int) : Option Int :=
  if Int64.minValue.toInt ≤ n ∧ n ≤ Int64.maxValue.toInt then some n else none

/-- An integer: decimal with or without a sign, or in a base named at its start. -/
def readInteger? : List Char → Option Int
  | '0' :: 'x' :: cs => (readNat? 16 cs).bind fun n => bounded? n
  | '0' :: 'o' :: cs => (readNat? 8 cs).bind fun n => bounded? n
  | '0' :: 'b' :: cs => (readNat? 2 cs).bind fun n => bounded? n
  | cs =>
    (wholeDigits? (dropSign cs)).bind fun ds =>
      let n : Int := Decimal.ofDigits ds
      bounded? (if cs.head? = some '-' then -n else n)

/-- Whether `cs` is an exponent: `e`, a sign or none, and digits. -/
def isExponent : List Char → Bool
  | 'e' :: cs | 'E' :: cs => (groups? Char.isDigit (dropSign cs)).isSome
  | _ => false

/-- Whether `cs` is what follows the whole part of a float: a fraction, an exponent or both. -/
def isFloatTail : List Char → Bool
  | '.' :: cs =>
    let isMark (c : Char) : Bool := c == 'e' || c == 'E'
    let tail := cs.dropWhile fun c => !isMark c
    (groups? Char.isDigit (cs.takeWhile fun c => !isMark c)).isSome &&
      (tail.isEmpty || isExponent tail)
  | cs => isExponent cs

/-- A float: a sign or none, then a name or a whole part and more. -/
def readFloat? (cs : List Char) : Option Float :=
  let word := dropSign cs
  if word = ['i', 'n', 'f'] ∨ word = ['n', 'a', 'n'] then Decimal.readFloat? cs
  else
    let isPart (c : Char) : Bool := c.isDigit || c == '_'
    if (wholeDigits? (word.takeWhile isPart)).isSome && isFloatTail (word.dropWhile isPart) then
      match Decimal.readFloat? (cs.filter (· != '_')) with
      | some x => if x == 1 / 0 then none else some x
      | none => none
    else none

/-! ## Points in time -/

/-- A number of exactly `width` digits below `limit`, and the text after it. -/
def readField? (width limit : Nat) (cs : List Char) : Option (Nat × List Char) :=
  let ds := cs.take width
  let n := Decimal.ofDigits ds
  if ds.length = width ∧ ds.all Char.isDigit ∧ n < limit then some (n, cs.drop width) else none

def dropMark? (c : Char) : List Char → Option (List Char)
  | d :: cs => if d = c then some cs else none
  | [] => none

def isLeapYear (year : Nat) : Bool := year % 4 == 0 && (year % 100 != 0 || year % 400 == 0)

def daysIn (year month : Nat) : Nat :=
  if month = 2 then if isLeapYear year then 29 else 28
  else if month = 4 ∨ month = 6 ∨ month = 9 ∨ month = 11 then 30
  else 31

def dropDate? (cs : List Char) : Option (List Char) := do
  let (year, cs) ← readField? 4 10000 cs
  let cs ← dropMark? '-' cs
  let (month, cs) ← readField? 2 13 cs
  let cs ← dropMark? '-' cs
  let (day, cs) ← readField? 2 (daysIn year month + 1) cs
  if month = 0 ∨ day = 0 then none else some cs

def dropMinutes? (cs : List Char) : Option (List Char) := do
  let (_, cs) ← readField? 2 24 cs
  let cs ← dropMark? ':' cs
  let (_, cs) ← readField? 2 60 cs
  return cs

/-- The text after a time of day, which can have a leap second and a fraction. -/
def dropTime? (cs : List Char) : Option (List Char) := do
  let cs ← dropMinutes? cs
  let cs ← dropMark? ':' cs
  let (_, cs) ← readField? 2 61 cs
  match cs with
  | '.' :: c :: cs => if c.isDigit then some (cs.dropWhile Char.isDigit) else none
  | cs => some cs

/-- Whether `cs` is nothing or the distance from universal time. -/
def isOffset : List Char → Bool
  | [] => true
  | ['Z'] | ['z'] => true
  | '+' :: cs | '-' :: cs => dropMinutes? cs == some []
  | _ => false

/-- Whether `cs` is a time of day with or without an offset. -/
def isTimeWithOffset (cs : List Char) : Bool := (dropTime? cs).any isOffset

def isDate (cs : List Char) : Bool := dropDate? cs == some []

/-- Whether `cs` is a date, a time or both with `T` between them. -/
def isMoment (cs : List Char) : Bool :=
  dropTime? cs == some [] ||
    match dropDate? cs with
    | some [] => true
    | some ('T' :: cs) | some ('t' :: cs) => isTimeWithOffset cs
    | _ => false

/-! ## Words -/

def isWordChar (c : Char) : Bool :=
  c.isAlphanum || c == '_' || c == '+' || c == '-' || c == '.' || c == ':'

def ofWord? (cs : List Char) : Option Value :=
  if cs = ['t', 'r', 'u', 'e'] then some (.boolean true)
  else if cs = ['f', 'a', 'l', 's', 'e'] then some (.boolean false)
  else if isMoment cs then some (.moment (String.ofList cs))
  else
    match readInteger? cs with
    | some n => some (.integer n)
    | none => (readFloat? cs).map .float

/-- Reads an unquoted value. A date can be followed by a blank and a time. -/
def read? (cs : List Char) : Option (Value × List Char) :=
  let word := cs.takeWhile isWordChar
  let rest := cs.dropWhile isWordChar
  let time := (rest.drop 1).takeWhile isWordChar
  if isDate word && rest.head? == some ' ' && !time.isEmpty then
    if isTimeWithOffset time then
      some (.moment (String.ofList (word ++ ' ' :: time)), rest.drop (1 + time.length))
    else none
  else (ofWord? word).map (·, rest)

end Bytebeat.Toml.Scalar
