import Bytebeat.Player
import Mathlib.Control.Monad.Basic

/-!
# The sources of a channel

What the check of the connections establishes (`Patch.checkConnections_eq_ok_iff`),
and that the sources of a channel, which are gathered one connection at a time,
are the nodes that feed it in the order of the connections
(`Sources.ofPatch_eq`). Gathering never refuses a connection that has been
checked.
-/

namespace Bytebeat

namespace Patch

theorem forM_eq_ok_iff {α ε : Type} {check : α → Except ε Unit} {as : List α} :
    as.forM check = .ok () ↔ ∀ a ∈ as, check a = .ok () := by
  induction as with
  | nil => exact ⟨fun _ a ha => absurd ha List.not_mem_nil, fun _ => rfl⟩
  | cons a as ih =>
    rw [List.forall_mem_cons, ← ih, List.forM, List.forM_eq_forM]
    cases check a with
    | error e => exact ⟨nofun, fun h => nomatch h.1⟩
    | ok u => exact ⟨fun h => ⟨rfl, h⟩, fun h => h.2⟩

theorem checkConnections_eq_ok_iff {p : Patch} :
    p.checkConnections = .ok () ↔ ∀ c ∈ p.connections, p.checkConnection c = .ok () :=
  forM_eq_ok_iff

theorem checkConnection_eq_ok_iff {p : Patch} {c : Connection} :
    p.checkConnection c = .ok () ↔ ∃ source target,
      p.node? c.source = some source ∧ p.node? c.target = some target ∧
      source.kind.isOutput = false ∧ c.channel.toNat < target.kind.channels ∧
      p.fanIn c.target c.channel ≤ maxFanIn := by
  unfold checkConnection
  split
  · rename_i hs
    simp [hs]
  · rename_i ht hs
    simp [hs, ht]
  · rename_i source target hs ht
    simp only [hs, ht, Option.some.injEq, exists_eq_left', exists_and_left]
    by_cases hout : source.kind.isOutput = true
    · simp only [hout, if_true, reduceCtorEq, false_and]
    rw [if_neg hout, Bool.eq_false_iff.2 hout]
    by_cases hchannel : target.kind.channels ≤ c.channel.toNat
    · simp only [if_pos hchannel, Nat.not_lt.2 hchannel, reduceCtorEq, false_and, and_false]
    rw [if_neg hchannel]
    by_cases hfan : maxFanIn < p.fanIn c.target c.channel
    · simp only [if_pos hfan, Nat.not_le.2 hfan, reduceCtorEq, and_false]
    · simp only [if_neg hfan, Nat.lt_of_not_le hchannel, Nat.le_of_not_lt hfan, and_self]

def output? (p : Patch) (id : NodeId) : Option Bool :=
  match p.node? id with
  | some ⟨_, .output stereo⟩ => some stereo
  | _ => none

/-- The nodes that feed a channel of a node, in the order of their connections. -/
def feeding (p : Patch) (id : NodeId) (channel : Nat) : List NodeId :=
  (p.connections.filter fun c => c.target == id && c.channel.toNat == channel).map (·.source)

def sources (p : Patch) (n : Nat) (id : NodeId) : Sources n := .ofFn fun c => p.feeding id c

end Patch

namespace Sources

def gather (n : Nat) (cs : List Connection) : Sources n :=
  .ofFn fun i => (cs.filter fun c => c.channel.toNat == i.val).map (·.source)

theorem gather_nil (n : Nat) : gather n [] = Vector.replicate n [] := by
  ext i hi
  simp [gather]

theorem gather_concat {n : Nat} {cs : List Connection} {c : Connection}
    (hc : c.channel.toNat < n) :
    gather n (cs ++ [c]) =
      (gather n cs).set c.channel.toNat ((gather n cs)[c.channel.toNat] ++ [c.source]) := by
  ext i hi : 1
  by_cases heq : c.channel.toNat = i
  · subst heq
    simp [gather]
  · simp [gather, heq]

theorem length_gather {n i : Nat} (hi : i < n) (cs : List Connection) :
    (gather n cs)[i].length = cs.countP fun c => c.channel.toNat == i := by
  simp [gather, List.countP_eq_length_filter]

theorem add_gather {n : Nat} {node : NodeId} {cs : List Connection} {c : Connection}
    (hc : c.channel.toNat < n)
    (hroom : (cs.countP fun c' => c'.channel.toNat == c.channel.toNat) < maxFanIn) :
    add node (gather n cs) c = .ok (gather n (cs ++ [c])) := by
  rw [← length_gather hc] at hroom
  simp only [add, hc, dite_true, hroom, if_true, gather_concat hc]

theorem foldlM_add {n : Nat} {node : NodeId} {cs' : List Connection} :
    ∀ {cs : List Connection}, (∀ c ∈ cs', c.channel.toNat < n) →
      (∀ c ∈ cs', ((cs ++ cs').countP fun c' => c'.channel.toNat == c.channel.toNat) ≤ maxFanIn) →
      cs'.foldlM (add node) (gather n cs) = .ok (gather n (cs ++ cs')) := by
  induction cs' with
  | nil => intro cs _ _; rw [List.append_nil]; rfl
  | cons c cs' ih =>
    intro cs hchannel hroom
    have hc : (cs.countP fun c' => c'.channel.toNat == c.channel.toNat) < maxFanIn := by
      have := hroom c List.mem_cons_self
      rw [List.countP_append, List.countP_cons, if_pos (beq_self_eq_true _)] at this
      omega
    rw [List.append_cons] at hroom ⊢
    rw [List.foldlM_cons, add_gather (hchannel c List.mem_cons_self) hc]
    exact ih (fun c h => hchannel c (List.mem_cons_of_mem _ h))
      (fun c h => hroom c (List.mem_cons_of_mem _ h))

/-- The connections of a checked patch can be gathered. -/
theorem ofPatch_eq {p : Patch} (hp : p.checkConnections = .ok ()) {id : NodeId} {node : Node}
    (hnode : p.node? id = some node) {n : Nat} (hn : node.kind.channels ≤ n) :
    ofPatch n p id = .ok (p.sources n id) := by
  have hcheck : ∀ c ∈ p.connections.filter (·.target == id),
      c.channel.toNat < n ∧ p.fanIn id c.channel ≤ maxFanIn := by
    intro c hc
    obtain ⟨hmem, htarget⟩ := List.mem_filter.1 hc
    obtain ⟨_, target, -, ht, -, hchannel, hfan⟩ :=
      Patch.checkConnection_eq_ok_iff.1 (Patch.checkConnections_eq_ok_iff.1 hp c hmem)
    rw [beq_iff_eq.1 htarget] at ht hfan
    obtain rfl : node = target := Option.some.inj (hnode.symm.trans ht)
    exact ⟨Nat.lt_of_lt_of_le hchannel hn, hfan⟩
  rw [ofPatch, ← gather_nil, foldlM_add (fun c hc => (hcheck c hc).1)]
  · simp only [gather, Patch.sources, Patch.feeding, List.nil_append, List.filter_filter,
      Bool.and_comm]
  · intro c hc
    refine Nat.le_trans (Nat.le_of_eq ?_) (hcheck c hc).2
    rw [List.nil_append, List.countP_filter, Patch.fanIn]
    refine List.countP_congr fun c' _ => ?_
    rw [Bool.and_comm, Bool.and_eq_true, Bool.and_eq_true, beq_iff_eq, beq_iff_eq, beq_iff_eq,
      UInt8.toNat_inj]

end Sources

end Bytebeat
