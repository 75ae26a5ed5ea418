import Bytebeat.Decimal.Reading

/-!
# Command-line arguments

The requests that arguments can make. Options stand before or after the
positional argument, their values attached to them or as the argument after;
`--` ends them. Arguments that fit no request are refused as a whole.
-/

namespace Bytebeat.CommandLine

inductive Setting where
  | channel (c : Fin 4)
  | time
  | noteFrequency
  | sampleRate
  | patch
  | out
  | seconds
  | note
  | verbose
  deriving DecidableEq, Repr

structure OptionSpec where
  setting : Setting
  long : Option String := none
  short : Option Char := none
  /-- Whether it takes a value; one that takes none can be repeated. -/
  hasValue : Bool := true
  /-- Whether a negative number as an argument of its own is a value. -/
  allowsNegative : Bool := false
  deriving Repr

def verboseSpec : OptionSpec :=
  { setting := .verbose, long := some "verbose", short := some 'v', hasValue := false }

def evaluateSpecs : List OptionSpec :=
  [{ setting := .channel 0, short := some 'a', allowsNegative := true },
   { setting := .channel 1, short := some 'b', allowsNegative := true },
   { setting := .channel 2, short := some 'c', allowsNegative := true },
   { setting := .channel 3, short := some 'd', allowsNegative := true },
   { setting := .time, long := some "t" },
   { setting := .noteFrequency, long := some "nf" },
   { setting := .sampleRate, long := some "sample-rate" },
   verboseSpec]

def renderSpecs : List OptionSpec :=
  [{ setting := .patch, long := some "patch" },
   { setting := .out, long := some "out", short := some 'o' },
   { setting := .seconds, long := some "seconds" },
   { setting := .sampleRate, long := some "sample-rate" },
   { setting := .note, long := some "note" },
   verboseSpec]

/-- The arguments sorted into settings and positional arguments, both in order. -/
structure Sorted where
  settings : List (Setting × String) := []
  positional : List String := []
  deriving Repr

namespace Sorted

/-- Adds a setting; one cannot be given twice. -/
def set? (s : Sorted) (setting : Setting) (value : String) : Option Sorted :=
  if (s.settings.lookup setting).isSome then none
  else some { s with settings := (setting, value) :: s.settings }

def addPositional (s : Sorted) (arg : String) : Sorted :=
  { s with positional := s.positional ++ [arg] }

def value? (s : Sorted) (setting : Setting) : Option String := s.settings.lookup setting

/-- The value of a setting read by `read`, or `default` if it is not given; no answer if it is
given and cannot be read. -/
def get? {α : Type} (s : Sorted) (setting : Setting) (read : String → Option α) (default : α) :
    Option α :=
  match s.value? setting with
  | some text => read text
  | none => some default

end Sorted

/-- Whether `cs` is a number without sign, as a negative number is told from an option: digits
with a point somewhere after the first, and an exponent without sign. -/
def isUnsignedNumber (cs : List Char) : Bool :=
  let isMark (c : Char) : Bool := c == 'e' || c == 'E'
  let mantissa := cs.takeWhile fun c => !isMark c
  let tail := cs.dropWhile fun c => !isMark c
  mantissa.all (fun c => c.isDigit || c == '.') && mantissa.count '.' ≤ 1 &&
    mantissa.head? != some '.' &&
    match tail with
    | [] => true
    | _ :: digits => !mantissa.isEmpty && !digits.isEmpty && digits.all Char.isDigit

def isValueFor (spec : OptionSpec) (arg : String) : Bool :=
  match arg.toList with
  | '-' :: c :: cs => spec.allowsNegative && isUnsignedNumber (c :: cs)
  | _ => true

/-- What an argument that starts with a dash asks for: settings with their values, the last of
which can have its value in the next argument. -/
structure Group where
  settings : List (Setting × String) := []
  pending : Option OptionSpec := none

def readLetters? (specs : List OptionSpec) : List Char → Option Group
  | [] => some {}
  | c :: cs =>
    match specs.find? (·.short == some c) with
    | none => none
    | some spec =>
      if !spec.hasValue then readLetters? specs cs
      else
        match cs with
        | [] => some { pending := some spec }
        | '=' :: value => some { settings := [(spec.setting, String.ofList value)] }
        | value => some { settings := [(spec.setting, String.ofList value)] }

def readLong? (specs : List OptionSpec) (cs : List Char) : Option Group :=
  let name := String.ofList (cs.takeWhile (· != '='))
  match specs.find? (·.long == some name), cs.dropWhile (· != '=') with
  | some spec, [] => if spec.hasValue then some { pending := some spec } else some {}
  | some spec, _ :: value =>
    if spec.hasValue then some { settings := [(spec.setting, String.ofList value)] } else none
  | none, _ => none

def sort? (specs : List OptionSpec) (s : Sorted) : List String → Option Sorted
  | [] => some s
  | arg :: args =>
    let group? :=
      match arg.toList with
      | '-' :: '-' :: c :: cs => some (readLong? specs (c :: cs))
      | ['-', '-'] => none
      | '-' :: c :: cs => some (readLetters? specs (c :: cs))
      | _ => none
    match group? with
    | none =>
      if arg = "--" then some (args.foldl Sorted.addPositional s)
      else sort? specs (s.addPositional arg) args
    | some none => none
    | some (some group) =>
      match group.settings.foldlM (fun s (setting, value) => s.set? setting value) s with
      | none => none
      | some s =>
        match group.pending, args with
        | none, args => sort? specs s args
        | some _, [] => none
        | some spec, value :: args =>
          if isValueFor spec value then
            match s.set? spec.setting value with
            | some s => sort? specs s args
            | none => none
          else none

inductive Source where
  | expression (text : String)
  | patchFile (path : String)
  deriving DecidableEq, Repr

inductive Request where
  | version
  | check (expression : String)
  | evaluate (expression : String) (channels : Vector Float 4)
      (time noteFrequency sampleRate : Float)
  | render (source : Source) (out : String) (seconds : Float) (sampleRate : UInt32)
      (note : Option Float)
  deriving DecidableEq, Repr

def float? (s : String) : Option Float := Decimal.readFloat? s.toList

/-- A whole number that fits 32 bits, with or without a sign. -/
def uint32? (s : String) : Option UInt32 :=
  let (negative, ds) :=
    match s.toList with
    | '-' :: ds => (true, ds)
    | '+' :: ds => (false, ds)
    | ds => (false, ds)
  let n := Decimal.ofDigits ds
  if ds.isEmpty || !ds.all Char.isDigit || UInt32.size ≤ n || (negative && n != 0) then none
  else some (UInt32.ofNat n)

def path? (s : String) : Option String := if s.isEmpty then none else some s

def check? (s : Sorted) : Option Request :=
  match s.positional with
  | [expression] => some (.check expression)
  | _ => none

def evaluate? (s : Sorted) : Option Request :=
  match s.positional with
  | [expression] => do
    let a ← s.get? (.channel 0) float? 0
    let b ← s.get? (.channel 1) float? 0
    let c ← s.get? (.channel 2) float? 0
    let d ← s.get? (.channel 3) float? 0
    let time ← s.get? .time float? 0
    let noteFrequency ← s.get? .noteFrequency float? 0
    let sampleRate ← s.get? .sampleRate float? 44100
    return .evaluate expression #v[a, b, c, d] time noteFrequency sampleRate
  | _ => none

/-- The request to render either an expression or a patch file. -/
def render? (s : Sorted) : Option Request := do
  let source ←
    match s.positional, s.value? .patch with
    | [expression], none => some (Source.expression expression)
    | [], some path => (path? path).map Source.patchFile
    | _, _ => none
  let out ← (s.value? .out).bind path?
  let seconds ← s.get? .seconds float? 10
  let sampleRate ← s.get? .sampleRate uint32? 44100
  let note ← s.get? .note (fun text => (float? text).map some) none
  return .render source out seconds sampleRate note

/-- The request of a list of arguments; `none` if they are refused. Only requests for the
version and for more detailed logs stand before the name of the command. -/
def request? : List String → Option Request
  | [] => none
  | "check" :: args => (sort? [verboseSpec] {} args).bind check?
  | "eval" :: args => (sort? evaluateSpecs {} args).bind evaluate?
  | "render" :: args => (sort? renderSpecs {} args).bind render?
  | "--verbose" :: args => request? args
  | "--version" :: _ => some .version
  | arg :: args =>
    match arg.toList with
    | '-' :: c :: cs =>
      let others := (c :: cs).dropWhile (· == 'v')
      if others.isEmpty then request? args
      else if others.head? == some 'V' then some .version
      else none
    | _ => none

end Bytebeat.CommandLine
