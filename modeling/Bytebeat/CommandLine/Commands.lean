import Bytebeat.CommandLine.Arguments
import Bytebeat.CommandLine.Disk
import Bytebeat.Decimal.Fixed
import Bytebeat.Session

/-!
# Commands

What the program prints and writes for each request. A rendering writes its
file only when every expression compiles and the whole file is at hand.
-/

namespace Bytebeat.CommandLine

/-- What a run of the program leaves besides files. -/
structure Outcome where
  exitCode : UInt32 := 0
  stdout : String := ""
  stderr : String := ""
  deriving DecidableEq, Repr

/-- A failure: a message and what caused it, from the outside in. -/
structure Failure where
  message : String
  causes : List String := []
  deriving DecidableEq, Repr

namespace Failure

/-- The causes as they are listed: a sole one by itself, several with numbers. -/
def causeLines : List String → List String
  | [] => []
  | [cause] => ["", "Caused by:", "    " ++ cause]
  | causes => ["", "Caused by:"] ++ causes.mapIdx fun i cause => s!"    {i}: " ++ cause

def report (f : Failure) : String :=
  String.join ((("Error: " ++ f.message) :: causeLines f.causes).map (· ++ "\n"))

def ofCompileError (e : CompileError) : Failure := ⟨e.message, [e.causeMessage]⟩

def sessionCauses : SessionError → List String
  | .patchFile (.wiring e) => [e.message]
  | _ => []

end Failure

/-- The outcome of a failure after something may have been printed. -/
def Outcome.fail (f : Failure) (stdout : String := "") (stderr : String := "") : Outcome :=
  { exitCode := 1, stdout, stderr := stderr ++ f.report }

def versionText : String := "bytegraph 0.1.0\n"

def check (expression : String) : Outcome :=
  match Program.compile expression with
  | .error e => .fail (.ofCompileError e)
  | .ok p => { stdout := s!"postfix: {p.text}\ndepth:   {p.depth}\n" }

def evaluate (expression : String) (inputs : Inputs) : Outcome :=
  match Program.compile expression with
  | .error e => .fail (.ofCompileError e)
  | .ok p =>
    let value := (p.evaluate inputs (.ofSeed Program.defaultSeed)).1
    { stdout := Decimal.text value ++ "\n" }

def invalidLines (s : Session) : List String :=
  s.patch.expressions.filterMap fun (id, text) =>
    if s.isValid id then none
    else
      let reason := ((s.compileError? id).map CompileError.message).getD ""
      some s!"node {id.toNat}: '{text}': {reason}\n"

def openSource {m : Type → Type} [Monad m] (disk : Disk m) (source : Source)
    (sampleRate : UInt32) : m (Except Failure Session) := do
  match source with
  | .expression text =>
    return (Session.ofExpression text sampleRate).mapError fun e => ⟨e.message, []⟩
  | .patchFile path =>
    match ← disk.readText path with
    | .error e => return .error ⟨"failed to read " ++ path, [e.message]⟩
    | .ok text =>
      return ((Session.ofSampleRate sampleRate).loadPatch text).mapError fun e =>
        ⟨"failed to load " ++ path, e.message :: Failure.sessionCauses e⟩

def render {m : Type → Type} [Monad m] (disk : Disk m) (source : Source) (out : String)
    (seconds : Float) (sampleRate : UInt32) (note : Option Float) : m Outcome := do
  match ← openSource disk source sampleRate with
  | .error f => return .fail f
  | .ok s =>
    let invalid := invalidLines s
    if !invalid.isEmpty then
      return .fail ⟨s!"{invalid.length} expression(s) failed to compile", []⟩ ""
        (String.join invalid)
    let s := match note with
      | some frequency => s.startNote frequency
      | none => s
    let started := "Rendering " ++ Decimal.fixedText 1 seconds ++ "s to " ++ out ++
      s!" at {sampleRate.toNat} Hz...\n"
    match (s.renderWav seconds).1 with
    | .error e => return .fail ⟨e.message, Failure.sessionCauses e⟩ started
    | .ok bytes =>
      match ← disk.writeBytes out bytes with
      | .error e => return .fail ⟨"failed to write " ++ out, [e.message]⟩ started
      | .ok () => return { stdout := started ++ s!"Rendered {bytes.length} bytes\n" }

def perform {m : Type → Type} [Monad m] (disk : Disk m) : Request → m Outcome
  | .version => return { stdout := versionText }
  | .check expression => return check expression
  | .evaluate expression channels time noteFrequency sampleRate =>
    return evaluate expression
      { channels, globals := { byteTime := time, noteFrequency, sampleRate } }
  | .render source out seconds sampleRate note =>
    render disk source out seconds sampleRate note

def run {m : Type → Type} [Monad m] (disk : Disk m) (args : List String) : m Outcome :=
  match request? args with
  | some r => perform disk r
  | none => return { exitCode := 2, stderr := "error: these arguments are not understood\n" }

end Bytebeat.CommandLine
