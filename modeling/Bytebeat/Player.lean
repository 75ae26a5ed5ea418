import Bytebeat.Clock
import Bytebeat.Frame
import Bytebeat.Machine
import Bytebeat.Mailbox
import Bytebeat.Patch.Order

/-!
# Players

A player renders a patch one frame at a time. Its stages, one for each node,
stand in an order in which every node comes after those that feed it, so that
one pass over them computes a frame from values of that same frame alone.
-/

namespace Bytebeat

/-- For each of `n` channels the nodes that feed it, in the order of their connections. -/
abbrev Sources (n : Nat) := Vector (List NodeId) n

namespace Sources

def add {n : Nat} (node : NodeId) (s : Sources n) (c : Connection) :
    Except WiringError (Sources n) :=
  if h : c.channel.toNat < n then
    let feeding := s[c.channel.toNat]
    if feeding.length < maxFanIn then .ok (s.set c.channel.toNat (feeding ++ [c.source]))
    else .error (.overcrowded node c.channel)
  else .error (.noSuchChannel node c.channel)

def ofPatch (n : Nat) (p : Patch) (node : NodeId) : Except WiringError (Sources n) :=
  (p.connections.filter (·.target == node)).foldlM (add node) (Vector.replicate n [])

end Sources

structure Voice where
  node : NodeId
  mailbox : Mailbox
  evaluator : Evaluator
  sources : Sources 4
  deriving BEq, Repr

inductive Stage where
  | voice (v : Voice)
  | output (stereo : Bool) (sources : Sources 2)
  deriving BEq, Repr

/-- What a frame is computed from and into: the latest value of each node and the sums of what
is heard. -/
structure Mix where
  values : Array Float
  left : Float := 0
  right : Float := 0
  deriving DecidableEq, Repr

namespace Mix

def value (m : Mix) (node : NodeId) : Float := m.values.getD node.toNat 0

/-- The sum of the values of `nodes`, from left to right. The sum of none is negative zero, so
that a sole value passes unchanged. -/
def sum (m : Mix) (nodes : List NodeId) : Float :=
  nodes.foldl (fun total node => total + m.value node) (-0.0)

/-- What a channel contributes to a side: nothing if it is not connected. -/
def hear (m : Mix) (side : Float) (nodes : List NodeId) : Float :=
  if nodes.isEmpty then side else side + byteToUnit (m.sum nodes)

end Mix

namespace Voice

/-- The seed of node zero's generator; that of another node is greater by its id. -/
def firstSeed : UInt64 := 0x5eed

/-- The voice of a node before any program is published to it. -/
def ofNode (node : NodeId) (sources : Sources 4) : Voice where
  node
  mailbox := .ofCapacity Mailbox.defaultCapacity
  evaluator := .ofGenerator (.ofSeed (firstSeed + node.toUInt64))
  sources

def refresh (v : Voice) : Voice := { v with mailbox := v.mailbox.refresh.1 }

def play (v : Voice) (globals : Globals) (m : Mix) : Voice × Mix :=
  let v := v.refresh
  let inputs : Inputs := { channels := v.sources.map m.sum, globals }
  let (value, evaluator) := v.evaluator.evaluate v.mailbox.current inputs
  ({ v with evaluator }, { m with values := m.values.setIfInBounds v.node.toNat value })

end Voice

namespace Stage

def ofNode (p : Patch) (id : NodeId) : Except WiringError Stage :=
  match p.node? id with
  | none => .error (.unknownNode id)
  | some ⟨_, .expression _⟩ => (Sources.ofPatch 4 p id).map fun s => .voice (.ofNode id s)
  | some ⟨_, .output stereo⟩ => (Sources.ofPatch 2 p id).map (.output stereo)

def node? : Stage → Option NodeId
  | voice v => some v.node
  | output _ _ => none

def mailbox? (node : NodeId) : Stage → Option Mailbox
  | voice v => if v.node = node then some v.mailbox else none
  | output _ _ => none

def onMailbox (f : Mailbox → Mailbox) : Stage → Stage
  | voice v => .voice { v with mailbox := f v.mailbox }
  | output stereo sources => .output stereo sources

/-- Runs a stage. Both sides of a mono output hear the same channel. -/
def play (globals : Globals) : Stage → Mix → Stage × Mix
  | voice v, m =>
    let (v, m) := v.play globals m
    (.voice v, m)
  | output stereo sources, m =>
    let right := if stereo then sources[1] else sources[0]
    (.output stereo sources,
      { m with left := m.hear m.left sources[0], right := m.hear m.right right })

def playAll (globals : Globals) : List Stage → Mix → List Stage × Mix
  | [], m => ([], m)
  | s :: rest, m =>
    let (s, m) := s.play globals m
    let (rest, m) := playAll globals rest m
    (s :: rest, m)

end Stage

structure Player where
  stages : List Stage := []
  /-- The latest value of each node. -/
  values : Array Float := #[]
  clock : Clock
  deriving BEq, Repr

namespace Player

def silent (sampleRate : Float) : Player := { clock := .ofSampleRate sampleRate }

/-- A player of a patch, with the empty program in every voice. -/
def ofPatch (p : Patch) (sampleRate : Float) : Except WiringError Player := do
  p.checkConnections
  let order ← p.order
  let stages ← order.mapM (Stage.ofNode p)
  return { stages, values := Array.replicate p.nodes.size 0, clock := .ofSampleRate sampleRate }

def voices (p : Player) : List NodeId :=
  (p.stages.filterMap Stage.node?).mergeSort (· ≤ ·)

def mailbox? (p : Player) (node : NodeId) : Option Mailbox :=
  p.stages.findSome? (Stage.mailbox? node)

def setMailbox (p : Player) (node : NodeId) (m : Mailbox) : Player :=
  { p with stages := p.stages.map fun s =>
      if s.node? = some node then s.onMailbox fun _ => m else s }

/-- Publishes a program to an expression node; a program that finds no room is handed back. -/
def publish (p : Player) (node : NodeId) (program : Program) : Player × Option Program :=
  match p.mailbox? node with
  | some m =>
    let (m, refused) := m.publish program
    (p.setMailbox node m, refused)
  | none => (p, some program)

def reclaim (p : Player) (node : NodeId) : Player × List Program :=
  match p.mailbox? node with
  | some m =>
    let (m, freed) := m.reclaim
    (p.setMailbox node m, freed)
  | none => (p, [])

def refresh (p : Player) : Player :=
  { p with stages := p.stages.map (Stage.onMailbox fun m => m.refresh.1) }

/-- Renders one frame and moves the clock on by one sample. -/
def renderFrame (p : Player) : Frame × Player :=
  let (stages, mix) := Stage.playAll p.clock.globals p.stages { values := p.values }
  (.ofUnit mix.left mix.right, { stages, values := mix.values, clock := p.clock.advance })

def renderAfter (p : Player) (done : Array Frame) : Nat → Array Frame × Player
  | 0 => (done, p)
  | count + 1 =>
    let (frame, p) := p.renderFrame
    p.renderAfter (done.push frame) count

def renderFrames (p : Player) (count : Nat) : Array Frame × Player :=
  p.renderAfter #[] count

def value? (p : Player) (node : NodeId) : Option Float := p.values[node.toNat]?

def prepare (p : Player) (sampleRate : Float) : Player :=
  { p with clock := p.clock.prepare sampleRate }

def startNote (p : Player) (frequency : Float) : Player :=
  { p with clock := p.clock.startNote frequency }

def sync (p : Player) (t : Transport) : Player := { p with clock := p.clock.sync t }

end Player

end Bytebeat
