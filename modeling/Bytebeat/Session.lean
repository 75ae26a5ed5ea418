import Bytebeat.Patch.File
import Bytebeat.Player
import Bytebeat.Wav

/-!
# Sessions

A session is a patch being edited and the player that renders it. Texts are
compiled as they are set and their programs published to the player; a program
that finds the mailbox full waits, and only the newest one does. The player can
be lent out: edits go on reaching it, but the session no longer renders with it
until the patch is replaced.
-/

namespace Bytebeat

/-- The editing state of an expression node. -/
structure Entry where
  node : NodeId
  /-- Whether the latest text compiled. -/
  isValid : Bool := true
  /-- Why the latest text did not compile. -/
  error : Option CompileError := none
  /-- The newest program, if the mailbox was full. -/
  waiting : Option Program := none
  deriving BEq, Repr

structure Session where
  patch : Patch := .empty
  sampleRate : UInt32
  /-- The player that the session publishes to. -/
  player : Player
  /-- Whether the player is lent out. -/
  lent : Bool := false
  entries : List Entry := []
  deriving BEq, Repr

/-- Why a session refuses a request. -/
inductive SessionError where
  | invalidDuration (seconds : Float)
  | patchFile (e : PatchFileError)
  | wav (e : Wav.Error)
  | wiring (e : WiringError)
  deriving DecidableEq, Repr

def SessionError.message : SessionError → String
  | invalidDuration seconds => "cannot render " ++ Decimal.text seconds ++ " seconds"
  | patchFile e => e.message
  | wav e => e.message
  | wiring e => e.message

namespace Entry

/-- Publishes a program to the node of an entry; a program that finds no room waits. -/
def publish (e : Entry) (program : Program) (player : Player) : Entry × Player :=
  let (player, refused) := player.publish e.node program
  ({ e with waiting := refused }, player)

/-- Compiles a text and publishes it. It takes the place of a program that waits; a text that does
not compile changes nothing but the verdict. -/
def compile (e : Entry) (text : String) (player : Player) : Entry × Player :=
  match Program.compile text with
  | .ok program => { e with isValid := true, error := none }.publish program player
  | .error error => ({ e with isValid := false, error := some error }, player)

def flush (e : Entry) (player : Player) : Entry × Player :=
  match e.waiting with
  | some program => e.publish program player
  | none => (e, player)

def flushAll : List Entry → Player → List Entry × Player
  | [], player => ([], player)
  | e :: es, player =>
    let (e, player) := e.flush player
    let (es, player) := flushAll es player
    (e :: es, player)

end Entry

namespace Session

def ofSampleRate (sampleRate : UInt32) : Session where
  sampleRate
  player := .silent (Float.ofNat sampleRate.toNat)

def compileNode (s : Session) (node : NodeId) (text : String) : Session :=
  match s.entries.find? (·.node == node) with
  | none => s
  | some e =>
    let (e, player) := e.compile text s.player
    { s with
      player
      entries := s.entries.map fun old => if old.node == node then e else old }

def entry? (s : Session) (node : NodeId) : Option Entry := s.entries.find? (·.node == node)

/-- Whether the latest text of a node compiled. -/
def isValid (s : Session) (node : NodeId) : Bool := (s.entry? node).any (·.isValid)

def compileError? (s : Session) (node : NodeId) : Option CompileError :=
  (s.entry? node).bind (·.error)

/-- Replaces the patch, with a new player of the session's own, and compiles every expression. A
player lent out before receives no more edits. -/
def setPatch (s : Session) (patch : Patch) : Except WiringError Session := do
  let player ← Player.ofPatch patch (Float.ofNat s.sampleRate.toNat)
  let entries := player.voices.map fun node => { node }
  let fresh : Session := { patch, sampleRate := s.sampleRate, player, entries }
  return patch.expressions.foldl (fun s (node, text) => s.compileNode node text) fresh

def loadPatch (s : Session) (text : String) : Except SessionError Session :=
  match PatchFile.load text with
  | .error e => .error (.patchFile e)
  | .ok patch => (s.setPatch patch).mapError .wiring

/-- A session that plays one expression through a mono output. -/
def ofExpression (text : String) (sampleRate : UInt32) : Except WiringError Session :=
  (ofSampleRate sampleRate).setPatch (.single text)

/-- Sets the text of an expression node and tells whether it compiled. For a node that is no
expression nothing happens. -/
def setExpression (s : Session) (node : NodeId) (text : String) : Session × Bool :=
  match s.patch.setExpression? node text with
  | none => (s, false)
  | some patch =>
    let s := { s with patch }.compileNode node text
    (s, s.isValid node)

/-- Publishes the programs that wait. A session that has its player installs queued programs
first to make room. -/
def flush (s : Session) : Session :=
  let player := if s.lent then s.player else s.player.refresh
  let (entries, player) := Entry.flushAll s.entries player
  { s with player, entries }

def startNote (s : Session) (frequency : Float) : Session :=
  if s.lent then s else { s with player := s.player.startNote frequency }

def sync (s : Session) (t : Transport) : Session :=
  if s.lent then s else { s with player := s.player.sync t }

/-- Lends the player out, after a flush; false if it was lent out already. -/
def lend (s : Session) : Session × Bool :=
  let s := s.flush
  ({ s with lent := true }, !s.lent)

/-- The player if it is lent out. -/
def lentPlayer? (s : Session) : Option Player := if s.lent then some s.player else none

/-- Renders `count` frames after a flush; none if the player is lent out. -/
def renderFrames (s : Session) (count : Nat) : Array Frame × Session :=
  let s := s.flush
  if s.lent then (#[], s)
  else
    let (frames, player) := s.player.renderFrames count
    (frames, { s with player })

/-- Renders a number of seconds as a wave file. A duration that gives no number of frames or too
many is refused before anything is rendered. -/
def renderWav (s : Session) (seconds : Float) : Except SessionError (List UInt8) × Session :=
  let count := Float.ofNat s.sampleRate.toNat * seconds
  if 0 ≤ count && count ≤ Float.ofNat Wav.maxFrames then
    let (frames, s) := s.renderFrames count.toUInt64.toNat
    ((Wav.encode frames.toList s.sampleRate).mapError .wav, s)
  else (.error (.invalidDuration seconds), s)

end Session

end Bytebeat
