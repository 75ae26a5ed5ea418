import Bytebeat.Patch

/-!
# Wiring

A patch is wired soundly if every connection joins two of its nodes, comes
from an expression and enters a channel that is there and not overcrowded.
Connections are checked in order; the first fault found is reported.
-/

namespace Bytebeat

/-- Why a patch cannot be played. -/
inductive WiringError where
  | unknownNode (node : NodeId)
  /-- An output feeds another node. -/
  | notASource (node : NodeId)
  | noSuchChannel (node : NodeId) (channel : UInt8)
  | overcrowded (node : NodeId) (channel : UInt8)
  /-- The connections lead from a node back to it. -/
  | cycle
  deriving DecidableEq, Repr

def WiringError.message : WiringError → String
  | unknownNode node => s!"connection refers to unknown node {node.toNat}"
  | notASource node => s!"output node {node.toNat} cannot feed other nodes"
  | noSuchChannel node channel => s!"node {node.toNat} has no input channel {channel.toNat}"
  | overcrowded node channel => s!"node {node.toNat} channel {channel.toNat} has too many inputs"
  | cycle => "patch contains a feedback cycle"

/-- The greatest number of connections into one channel. -/
def maxFanIn : Nat := 16

namespace Patch

def fanIn (p : Patch) (node : NodeId) (channel : UInt8) : Nat :=
  p.connections.countP fun c => c.target == node && c.channel == channel

def checkConnection (p : Patch) (c : Connection) : Except WiringError Unit :=
  match p.node? c.source, p.node? c.target with
  | none, _ => .error (.unknownNode c.source)
  | some _, none => .error (.unknownNode c.target)
  | some source, some target =>
    if source.kind.isOutput then .error (.notASource c.source)
    else if target.kind.channels ≤ c.channel.toNat then
      .error (.noSuchChannel c.target c.channel)
    else if maxFanIn < p.fanIn c.target c.channel then .error (.overcrowded c.target c.channel)
    else .ok ()

def checkConnections (p : Patch) : Except WiringError Unit :=
  p.connections.forM p.checkConnection

end Patch

end Bytebeat
