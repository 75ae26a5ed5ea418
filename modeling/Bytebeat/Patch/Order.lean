import Bytebeat.Patch.Wiring

/-!
# The order of evaluation

Nodes are placed one at a time, each after all that feed it. Those ready to be
placed form a stack: at first the nodes without inputs, the lowest on top; a
node that loses its last unplaced source goes on top.
-/

namespace Bytebeat.Patch

def inDegrees (p : Patch) : Array Nat :=
  p.connections.foldl (fun degrees c => degrees.modify c.target.toNat (· + 1))
    (Array.replicate p.nodes.size 0)

/-- The unplaced sources left for each node, and the nodes ready to be placed. -/
structure Frontier where
  degrees : Array Nat
  ready : List NodeId
  deriving DecidableEq, Repr

/-- Takes note that `placed` no longer holds back the target of `c`. -/
def Frontier.release (placed : NodeId) (f : Frontier) (c : Connection) : Frontier :=
  let i := c.target.toNat
  if h : c.source = placed ∧ i < f.degrees.size then
    let left := f.degrees[i] - 1
    ⟨f.degrees.set i left, if left = 0 then c.target :: f.ready else f.ready⟩
  else f

/-- Places ready nodes until none is left, at most `fuel` of them; `placed` has the latest
first. -/
def place (connections : List Connection) : Nat → List NodeId → Frontier → List NodeId
  | 0, placed, _ => placed
  | fuel + 1, placed, f =>
    match f.ready with
    | [] => placed
    | id :: ready =>
      place connections fuel (id :: placed)
        (connections.foldl (Frontier.release id) { f with ready })

/-- The nodes before any is placed: those without inputs are ready. Ids beyond `2 ^ 16` are
out of reach. -/
def frontier (p : Patch) : Frontier :=
  let degrees := p.inDegrees
  let ids := (List.range (p.nodes.size % UInt16.size)).filter fun i => degrees[i]? == some 0
  ⟨degrees, ids.map UInt16.ofNat⟩

/-- All nodes in an order in which each comes after those that feed it. -/
def order (p : Patch) : Except WiringError (List NodeId) :=
  let placed := place p.connections p.nodes.size [] p.frontier
  if placed.length < p.nodes.size then .error .cycle else .ok placed.reverse

end Bytebeat.Patch
