import Bytebeat.Proofs.Precedence

/-!
# Placing nodes comes to an end

`Placing cs placed f result`: from the frontier `f` the nodes in `result` are
placed in the end, one ready node after the other until none is left, and no
node ever loses a source that it does not wait for. The order of a patch is
what placing comes to (`placing_frontier`), though it stops after as many nodes
as there are: no node is placed twice. So an order is found exactly for the
patches without cycles whose nodes can all be named (`order_of_closed`).
-/

namespace Bytebeat.Patch

variable {p : Patch} {ids placed ready : List NodeId} {n : Nat} {cs : List Connection}
  {id : NodeId}

/-! ## Taking off connections -/

namespace Frontier

variable {f : Frontier}

/-- When the connections `cs` from `source` are taken off one at a time, each is one that its target
still waits for. -/
def Releases (source : NodeId) (cs : List Connection) (f : Frontier) : Prop :=
  ∀ done c rest, cs = done ++ c :: rest → c.source = source →
    ∀ left, (done.foldl (release source) f).degrees[c.target.toNat]? = some left → 0 < left

/-- The induction over the connections already taken off leaves `c` and those after it among the
ones that nodes wait for. -/
theorem Sound.releases (h : f.Sound n (held cs placed) placed) (hready : f.ready = id :: ready) :
    Releases id cs { f with ready } := by
  rintro done c rest rfl rfl left hleft
  have hid : c.source ∉ placed := h.not_mem_of_ready (hready ▸ List.mem_cons_self)
  have hstart : ({ f with ready } : Frontier).Sound n
      (fun k => held (c :: rest) placed k + held done placed k) (c.source :: placed) :=
    (h.taken hready).congr fun k _ => by rw [Nat.zero_add, held_append, Nat.add_comm]
  have hdone := foldl_release_induction hid
    (P := fun waits f => f.Sound n waits (c.source :: placed)) Sound.size Sound.congr
    (fun h hlt hpos => h.release_target hlt hpos) done hstart
  have hlt : c.target.toNat < n := hdone.size ▸ (Array.getElem?_eq_some_iff.1 hleft).1
  rw [hdone.degree c.target hlt, Option.some.injEq, held_cons, if_pos ⟨rfl, hid⟩] at hleft
  omega

end Frontier

/-! ## Placing until no node is ready -/

/-- Placing ready nodes, the first first, until none is left. -/
inductive Placing (cs : List Connection) : List NodeId → Frontier → List NodeId → Prop where
  | done (placed : List NodeId) (degrees : Array Nat) : Placing cs placed ⟨degrees, []⟩ placed
  | place {placed result ready : List NodeId} {degrees : Array Nat} {id : NodeId} :
      Frontier.Releases id cs ⟨degrees, ready⟩ →
      Placing cs (id :: placed) (cs.foldl (Frontier.release id) ⟨degrees, ready⟩) result →
      Placing cs placed ⟨degrees, id :: ready⟩ result

/-- As many nodes as there are may be placed: then none is ready any more. -/
theorem placing_place {fuel : Nat} :
    ∀ {placed : List NodeId} {f : Frontier}, f.Sound n (held cs placed) placed →
      n ≤ fuel + placed.length → Placing cs placed f (place cs fuel placed f) := by
  induction fuel with
  | zero =>
    rintro placed ⟨degrees, ready⟩ h hfuel
    have hlength := length_le_of_lt h.nodup h.lt
    rw [List.length_append] at hlength
    obtain rfl : ready = [] := List.length_eq_zero_iff.1 (by simp only at hlength; omega)
    exact .done placed degrees
  | succ fuel ih =>
    rintro placed ⟨degrees, ready⟩ h hfuel
    cases ready with
    | nil => exact .done placed degrees
    | cons id ready =>
      refine .place (h.releases rfl) (ih (h.place rfl) ?_)
      rw [List.length_cons]
      omega

theorem placing_frontier (p : Patch) :
    Placing p.connections [] p.frontier (place p.connections p.nodes.size [] p.frontier) :=
  placing_place p.frontier_sound (Nat.le_add_right _ _)

/-! ## The order found -/

theorem perm_of_order (h : p.order = .ok ids) :
    (ids.map UInt16.toNat).Perm (List.range p.nodes.size) := by
  have hnodup : (ids.map UInt16.toNat).Nodup :=
    (order_nodup h).map fun _ _ heq => UInt16.toNat_inj.1 heq
  refine (List.perm_ext_iff_of_nodup hnodup List.nodup_range).2 fun i => ?_
  rw [List.mem_map, List.mem_range]
  constructor
  · rintro ⟨id, hid, rfl⟩
    exact lt_of_mem_order h hid
  · exact exists_mem_order h

theorem idxOf_lt_of_feeds (h : p.order = .ok ids) {a b : NodeId} (hfeeds : p.Feeds a b)
    (ha : a ∈ ids) (hb : b ∈ ids) : ids.idxOf a < ids.idxOf b := by
  rcases Nat.lt_trichotomy (ids.idxOf a) (ids.idxOf b) with hlt | heq | hgt
  · exact hlt
  · obtain rfl := (List.idxOf_inj ha).1 heq
    exact absurd hfeeds (not_feeds_self h ha)
  · have hpair := List.pairwise_iff_getElem.1 (order_pairwise h) _ _ (List.idxOf_lt_length_of_mem hb)
      (List.idxOf_lt_length_of_mem ha) hgt
    rw [List.getElem_idxOf, List.getElem_idxOf] at hpair
    exact absurd hfeeds hpair

/-- **An order is found exactly for the patches without a cycle that have fewer than `2 ^ 16`
nodes.** Placing comes to an end without ever taking off a connection that its target does not wait
for. The order found has each place of the patch in it once, and each connection leads from a node
to a later one; where there is none, a cycle is reported. -/
theorem order_of_closed (p : Patch) (h : p.Closed) :
    (∃ placed, Placing p.connections [] p.frontier placed ∧
        p.order = if placed.length < p.nodes.size then .error .cycle else .ok placed.reverse) ∧
      (p.nodes.size ≤ 65535 →
        (p.Acyclic → ∃ ids, p.order = .ok ids ∧
          (ids.map UInt16.toNat).Perm (List.range p.nodes.size) ∧
          ∀ c ∈ p.connections, ids.idxOf c.source < ids.idxOf c.target) ∧
        (¬p.Acyclic → p.order = .error .cycle)) ∧
      (65536 ≤ p.nodes.size → p.order = .error .cycle) := by
  have hcycle : (∀ ids, p.order ≠ .ok ids) → p.order = .error .cycle := by
    intro hnone
    cases hordered : p.order with
    | error e => rw [eq_cycle_of_order hordered]
    | ok ids => exact absurd hordered (hnone ids)
  refine ⟨⟨_, p.placing_frontier, rfl⟩, fun hsize => ⟨fun hacyclic => ?_, fun hcyclic => ?_⟩,
    fun hsize => ?_⟩
  · obtain ⟨ids, hids⟩ := exists_order h (Nat.lt_succ_of_le hsize) hacyclic
    refine ⟨ids, hids, perm_of_order hids, fun c hc => ?_⟩
    obtain ⟨hsource, htarget⟩ := h c hc
    exact idxOf_lt_of_feeds hids ⟨c, hc, rfl, rfl⟩ ((mem_order_iff hids _).2 hsource)
      ((mem_order_iff hids _).2 htarget)
  · exact hcycle fun ids hids => hcyclic (acyclic_of_order h hids)
  · exact hcycle fun ids hids => Nat.not_lt.2 hsize (size_lt_of_order hids)

/-- A chain that is listed from its end, with one of its connections drawn twice. -/
theorem order_of_closed_chain :
    let p := ofKinds [.output false, .expression "a*2", .expression "t"]
      [⟨1, 0, 0⟩, ⟨2, 1, 0⟩, ⟨2, 1, 0⟩]
    p.Closed ∧ p.nodes.size ≤ 65535 ∧ p.Acyclic ∧ p.order = .ok [2, 1, 0] ∧
      (∃ ids, p.order = .ok ids ∧ (ids.map UInt16.toNat).Perm (List.range p.nodes.size) ∧
        ∀ c ∈ p.connections, ids.idxOf c.source < ids.idxOf c.target) := by
  intro p
  have hclosed : ∀ c ∈ p.connections,
      c.source.toNat < p.nodes.size ∧ c.target.toNat < p.nodes.size := by decide
  have hsize : p.nodes.size ≤ 65535 := by decide
  have hdown : ∀ {a b}, p.Feeds a b → b < a := by
    have hconnections : ∀ c ∈ p.connections, c.target < c.source := by decide
    rintro a b ⟨c, hc, rfl, rfl⟩
    exact hconnections c hc
  have hacyclic : p.Acyclic := by
    intro id hcycle
    have hlt : ∀ {a b}, Relation.TransGen p.Feeds a b → b < a := by
      intro a b hab
      induction hab with
      | single hfeeds => exact hdown hfeeds
      | tail _ hfeeds ih => exact UInt16.lt_trans (hdown hfeeds) ih
    exact UInt16.lt_irrefl id (hlt hcycle)
  obtain ⟨-, horder, -⟩ := order_of_closed p hclosed
  exact ⟨hclosed, hsize, hacyclic, by decide +kernel, (horder hsize).1 hacyclic⟩

end Bytebeat.Patch
