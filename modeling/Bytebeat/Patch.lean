/-!
# Patches

A patch is a list of nodes, each an expression or an output, and a list of
connections between them. A node is named by its place in the list.
-/

namespace Bytebeat

/-- The name of a node: its place in the list, modulo `2 ^ 16`. -/
abbrev NodeId := UInt16

inductive NodeKind where
  /-- Computes a value from four input channels. -/
  | expression (text : String)
  /-- Is heard: on both sides alike, or with a channel for each side. -/
  | output (stereo : Bool)
  deriving DecidableEq, Repr

/-- The number of channels that connections can enter. -/
def NodeKind.channels : NodeKind → Nat
  | expression _ => 4
  | output true => 2
  | output false => 1

def NodeKind.isOutput : NodeKind → Bool
  | expression _ => false
  | output _ => true

structure Node where
  id : NodeId
  kind : NodeKind
  deriving DecidableEq, Repr

/-- The value of `source` enters a channel of `target`. -/
structure Connection where
  source : NodeId
  target : NodeId
  channel : UInt8
  deriving DecidableEq, Repr

structure Patch where
  nodes : Array Node := #[]
  connections : List Connection := []
  deriving DecidableEq, Repr

namespace Patch

def empty : Patch := {}

/-- Adds a node, named by the place it gets. -/
def addNode (p : Patch) (kind : NodeKind) : Patch × NodeId :=
  let id := UInt16.ofNat p.nodes.size
  ({ p with nodes := p.nodes.push ⟨id, kind⟩ }, id)

def connect (p : Patch) (c : Connection) : Patch :=
  { p with connections := p.connections ++ [c] }

/-- The patch with nodes of the given kinds, each named by its place. -/
def ofKinds (kinds : List NodeKind) (connections : List Connection) : Patch :=
  { kinds.foldl (fun p kind => (p.addNode kind).1) empty with connections }

/-- One expression and a mono output that it feeds. -/
def single (text : String) : Patch := ofKinds [.expression text, .output false] [⟨0, 1, 0⟩]

def node? (p : Patch) (id : NodeId) : Option Node := p.nodes[id.toNat]?

def expression? (p : Patch) (id : NodeId) : Option String :=
  match p.node? id with
  | some ⟨_, .expression text⟩ => some text
  | _ => none

/-- The patch with another text for an expression node; `none` if there is no such node. -/
def setExpression? (p : Patch) (id : NodeId) (text : String) : Option Patch :=
  match p.node? id with
  | some ⟨own, .expression _⟩ =>
    some { p with nodes := p.nodes.setIfInBounds id.toNat ⟨own, .expression text⟩ }
  | _ => none

def expressions (p : Patch) : List (NodeId × String) :=
  p.nodes.toList.filterMap fun n =>
    match n.kind with
    | .expression text => some (n.id, text)
    | .output _ => none

end Patch

end Bytebeat
