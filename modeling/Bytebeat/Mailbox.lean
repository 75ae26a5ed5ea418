import Bytebeat.Program

/-!
# Mailboxes

A mailbox carries programs from an editor to a player and back. Programs wait
in a bounded queue until the player installs them; a program that is replaced
waits in a second queue until the editor takes it back. Each queue is first in,
first out, oldest first in the list.
-/

namespace Bytebeat

structure Mailbox where
  /-- The number of programs that can wait to be installed. -/
  capacity : Nat
  /-- Programs that wait to be installed. -/
  inbound : List Program := []
  /-- The program installed. -/
  current : Program := .empty
  /-- Programs replaced and not yet taken back. -/
  retired : List Program := []
  deriving BEq, Repr

namespace Mailbox

/-- The capacity of a player's mailboxes. -/
def defaultCapacity : Nat := 4

/-- A mailbox with the empty program installed; a capacity of zero counts as one. -/
def ofCapacity (capacity : Nat) : Mailbox := { capacity := max capacity 1 }

def pending (m : Mailbox) : Nat := m.inbound.length

def reclaim (m : Mailbox) : Mailbox × List Program := ({ m with retired := [] }, m.retired)

/-- Queues a program, taking back the retired ones first. A full queue refuses it, and it is
handed back. -/
def publish (m : Mailbox) (p : Program) : Mailbox × Option Program :=
  let m := m.reclaim.1
  if m.pending < m.capacity then ({ m with inbound := m.inbound ++ [p] }, none)
  else (m, some p)

/-- Retires a program; the queue has room for one more than can wait to be installed, and a
program beyond that is lost. -/
def retire (m : Mailbox) (p : Program) : Mailbox :=
  if m.retired.length < m.capacity + 1 then { m with retired := m.retired ++ [p] } else m

def install (m : Mailbox) (p : Program) : Mailbox := { m.retire m.current with current := p }

/-- Installs the waiting programs one after the other, so that the last stays, and tells whether
there was any. -/
def refresh (m : Mailbox) : Mailbox × Bool :=
  m.inbound.foldl (fun (m, _) p => (m.install p, true)) ({ m with inbound := [] }, false)

end Mailbox

end Bytebeat
