import Bytebeat.Proofs.Order
import Bytebeat.Proofs.Sources
import Mathlib.Data.Fintype.EquivFin

/-!
# Sources come first

A patch whose connections lead to nodes of its own has an order of evaluation
exactly if its nodes can be numbered and the connections form no cycle. In an
order each node comes after those that feed it (`order_pairwise`), so that no
cycle has a first node (`acyclic_of_order`). Conversely, where placing stops
short every node left waits for another that is left, and without a cycle there
is none (`exists_order`).
-/

namespace Bytebeat.Patch

/-- A connection leads from `a` to `b`. -/
def Feeds (p : Patch) (a b : NodeId) : Prop := ∃ c ∈ p.connections, c.source = a ∧ c.target = b

/-- No node feeds itself, neither directly nor through others. -/
def Acyclic (p : Patch) : Prop := ∀ id, ¬Relation.TransGen p.Feeds id id

/-- Both ends of every connection are nodes of the patch. -/
def Closed (p : Patch) : Prop :=
  ∀ c ∈ p.connections, c.source.toNat < p.nodes.size ∧ c.target.toNat < p.nodes.size

variable {p : Patch} {ids placed ready : List NodeId} {n : Nat} {cs : List Connection}
  {id : NodeId}

/-! ## An order puts sources first -/

/-- Each of the nodes placed, latest first, comes after all that feed it. -/
def Settled (cs : List Connection) : List NodeId → Prop
  | [] => True
  | id :: earlier => (∀ c ∈ cs, c.target = id → c.source ∈ earlier) ∧ Settled cs earlier

theorem settled_place :
    ∀ {fuel : Nat} {placed : List NodeId} {f : Frontier},
      f.Sound n (held cs placed) placed → Settled cs placed →
      Settled cs (place cs fuel placed f) := by
  intro fuel
  induction fuel with
  | zero => exact fun _ hs => hs
  | succ fuel ih =>
    intro placed f h hs
    unfold place
    split
    · exact hs
    · rename_i id ready hready
      exact ih (h.place hready) ⟨h.source_mem (hready ▸ List.mem_cons_self), hs⟩

theorem settled_order (h : p.order = .ok ids) : Settled p.connections ids.reverse := by
  rw [(order_eq_ok h).1, List.reverse_reverse]
  exact settled_place p.frontier_sound trivial

theorem Settled.mem_of_feeds (h : Settled p.connections placed) (hid : id ∈ placed) {a : NodeId}
    (ha : p.Feeds a id) : a ∈ placed := by
  obtain ⟨c, hc, rfl, rfl⟩ := ha
  induction placed with
  | nil => exact absurd hid List.not_mem_nil
  | cons k earlier ih =>
    rcases List.mem_cons.1 hid with heq | hid
    · exact List.mem_cons_of_mem _ (h.1 c hc heq)
    · exact List.mem_cons_of_mem _ (ih h.2 hid)

theorem Settled.acc (h : Settled p.connections placed) : ∀ id ∈ placed, Acc p.Feeds id := by
  induction placed with
  | nil => exact fun _ hid => absurd hid List.not_mem_nil
  | cons k earlier ih =>
    intro id hid
    rcases List.mem_cons.1 hid with rfl | hid
    · refine ⟨_, fun a ha => ?_⟩
      obtain ⟨c, hc, rfl, htarget⟩ := ha
      exact ih h.2 _ (h.1 c hc htarget)
    · exact ih h.2 id hid

theorem not_transGen_of_acc {α : Type} {r : α → α → Prop} {a : α} (h : Acc r a) :
    ¬Relation.TransGen r a a := by
  induction h with
  | intro a _ ih =>
    intro hcycle
    obtain ⟨b, hab, hba⟩ := Relation.TransGen.tail'_iff.1 hcycle
    exact ih b hba (Relation.TransGen.head' hba hab)

theorem Settled.pairwise (h : Settled p.connections placed) (hnodup : placed.Nodup) :
    placed.Pairwise fun a b => ¬p.Feeds a b := by
  induction placed with
  | nil => exact .nil
  | cons id earlier ih =>
    obtain ⟨hid, hnodup⟩ := List.nodup_cons.1 hnodup
    exact .cons (fun a ha hfeeds => hid (Settled.mem_of_feeds h.2 ha hfeeds)) (ih h.2 hnodup)

theorem order_pairwise (h : p.order = .ok ids) : ids.Pairwise fun a b => ¬p.Feeds b a := by
  rw [← List.reverse_reverse ids, List.pairwise_reverse]
  exact (settled_order h).pairwise (List.nodup_reverse.2 (order_nodup h))

theorem not_feeds_self (h : p.order = .ok ids) (hid : id ∈ ids) : ¬p.Feeds id id := fun hfeeds =>
  not_transGen_of_acc ((settled_order h).acc id (List.mem_reverse.2 hid)) (.single hfeeds)

theorem closed_of_checkConnections (hp : p.checkConnections = .ok ()) : p.Closed := by
  intro c hc
  obtain ⟨_, _, hs, ht, -⟩ :=
    checkConnection_eq_ok_iff.1 (checkConnections_eq_ok_iff.1 hp c hc)
  exact ⟨(Array.getElem?_eq_some_iff.1 hs).1, (Array.getElem?_eq_some_iff.1 ht).1⟩

theorem acyclic_of_order (hp : p.Closed) (h : p.order = .ok ids) : p.Acyclic := by
  intro id hcycle
  obtain ⟨_, -, c, hc, -, rfl⟩ := Relation.TransGen.tail'_iff.1 hcycle
  have hmem := (mem_order_iff h _).2 (hp c hc).2
  exact not_transGen_of_acc ((settled_order h).acc _ (List.mem_reverse.2 hmem)) hcycle

/-- Of `2 ^ 16` nodes none is ever ready, since their count wraps to zero. -/
theorem size_lt_of_order (h : p.order = .ok ids) : p.nodes.size < UInt16.size := by
  refine Nat.lt_of_le_of_ne (size_le_of_order h) fun hsize => ?_
  obtain ⟨hids, hlength⟩ := order_eq_ok h
  have hready : p.frontier.ready = [] := by simp [frontier, hsize]
  have hplaced : place p.connections p.nodes.size [] p.frontier = [] := by
    rw [hsize, show UInt16.size = 65535 + 1 from rfl, place, hready]
  rw [hids, hplaced, List.reverse_nil, List.length_nil, hsize] at hlength
  exact absurd hlength (by decide)

/-! ## Without a cycle there is an order -/

namespace Frontier

/-- Every node that waits for nothing is placed or ready. -/
def Full (n : Nat) (waits : NodeId → Nat) (placed : List NodeId) (f : Frontier) : Prop :=
  ∀ id : NodeId, id.toNat < n → waits id = 0 → id ∈ placed ++ f.ready

variable {waits waits' : NodeId → Nat} {f : Frontier}

theorem Full.congr (h : f.Full n waits placed)
    (heq : ∀ id : NodeId, id.toNat < n → waits' id = waits id) : f.Full n waits' placed :=
  fun id hid hzero => h id hid (heq id hid ▸ hzero)

theorem Full.release_target (h : f.Full n waits placed) (hf : f.Sound n waits placed)
    {c : Connection} (hlt : c.target.toNat < n) :
    (f.release c.source c).Full n (fun id => if id = c.target then waits id - 1 else waits id)
      placed := by
  rw [release_of_waits (hf.degree c.target hlt)]
  intro id hid hzero
  beta_reduce at hzero
  by_cases heq : id = c.target
  · subst heq
    rw [if_pos rfl] at hzero
    rw [if_pos hzero]
    exact List.mem_append_right _ List.mem_cons_self
  · rw [if_neg heq] at hzero
    have hmem := h id hid hzero
    rcases List.mem_append.1 hmem with hmem | hmem
    · exact List.mem_append_left _ hmem
    · refine List.mem_append_right _ ?_
      split
      · exact List.mem_cons_of_mem _ hmem
      · exact hmem

theorem Full.place (h : f.Full n (held cs placed) placed)
    (hf : f.Sound n (held cs placed) placed) (hready : f.ready = id :: ready) :
    (cs.foldl (Frontier.release id) { f with ready }).Full n (held cs (id :: placed))
      (id :: placed) := by
  have hfull : ({ f with ready } : Frontier).Full n (fun k => 0 + held cs placed k)
      (id :: placed) := by
    intro k hk hzero
    beta_reduce at hzero
    rw [Nat.zero_add] at hzero
    have hmem := h k hk hzero
    rw [hready] at hmem
    exact List.perm_middle.mem_iff.1 hmem
  have hid : id ∉ placed := hf.not_mem_of_ready (hready ▸ List.mem_cons_self)
  have htaken := foldl_release_induction hid
    (P := fun waits f => f.Sound n waits (id :: placed) ∧ f.Full n waits (id :: placed))
    (fun h => h.1.size) (fun h heq => ⟨h.1.congr heq, h.2.congr heq⟩)
    (fun h hlt hpos => ⟨h.1.release_target hlt hpos, h.2.release_target h.1 hlt⟩) cs
    ⟨hf.taken hready, hfull⟩
  exact htaken.2.congr fun id _ => (Nat.zero_add _).symm

end Frontier

/-- Placing goes on until nothing is ready, or else has placed as many nodes as it may. -/
theorem length_place_or_mem {fuel : Nat} :
    ∀ {placed : List NodeId} {f : Frontier},
      f.Sound n (held cs placed) placed → f.Full n (held cs placed) placed →
      (place cs fuel placed f).length = fuel + placed.length ∨
        ∀ id : NodeId, id.toNat < n → held cs (place cs fuel placed f) id = 0 →
          id ∈ place cs fuel placed f := by
  induction fuel with
  | zero => exact fun _ _ => .inl (Nat.zero_add _).symm
  | succ fuel ih =>
    intro placed f hf h
    unfold place
    split
    · rename_i hready
      refine .inr fun id hid hzero => ?_
      have hmem := h id hid hzero
      rwa [hready, List.append_nil] at hmem
    · rename_i id ready hready
      refine (ih (hf.place hready) (h.place hf hready)).imp_left fun hlength => ?_
      rw [hlength, List.length_cons, Nat.add_comm placed.length 1, Nat.add_assoc]

theorem full_frontier (hsize : p.nodes.size < UInt16.size) :
    p.frontier.Full p.nodes.size (held p.connections []) [] := by
  intro id hid hzero
  have hdegree := p.getElem?_inDegrees hid
  simp only [frontier, List.nil_append, List.mem_map, List.mem_filter, List.mem_range, beq_iff_eq,
    Nat.mod_eq_of_lt hsize]
  exact ⟨id.toNat, ⟨hid, by rw [hdegree, hzero]⟩, UInt16.ofNat_toNat⟩

theorem Acyclic.wellFounded (h : p.Acyclic) : WellFounded p.Feeds := by
  have : Finite NodeId := Finite.of_injective UInt16.toFin fun _ _ => UInt16.toFin_inj.1
  have : Std.Irrefl (Relation.TransGen p.Feeds) := ⟨h⟩
  have hwf := Finite.wellFounded_of_trans_of_irrefl (Relation.TransGen p.Feeds)
  exact Subrelation.wf (fun hab => .single hab) hwf

theorem size_le_length (hsize : p.nodes.size < UInt16.size)
    (h : ∀ id : NodeId, id.toNat < p.nodes.size → id ∈ ids) : p.nodes.size ≤ ids.length := by
  have hnat : ∀ i < p.nodes.size, (UInt16.ofNat i).toNat = i := fun i hi =>
    UInt16.toNat_ofNat_of_lt' (Nat.lt_trans hi hsize)
  have hnodup : ((List.range p.nodes.size).map UInt16.ofNat).Nodup := by
    refine List.Nodup.map_on (fun i hi j hj heq => ?_) List.nodup_range
    rw [← hnat i (List.mem_range.1 hi), heq, hnat j (List.mem_range.1 hj)]
  have hsub : (List.range p.nodes.size).map UInt16.ofNat ⊆ ids := by
    intro id hid
    obtain ⟨i, hi, rfl⟩ := List.mem_map.1 hid
    have hi := List.mem_range.1 hi
    exact h _ (by rw [hnat i hi]; exact hi)
  have hlength := (List.subperm_of_subset hnodup hsub).length_le
  rwa [List.length_map, List.length_range] at hlength

theorem exists_order (hp : p.Closed) (hsize : p.nodes.size < UInt16.size)
    (hacyclic : p.Acyclic) : ∃ ids, p.order = .ok ids := by
  have hlength : p.nodes.size ≤ (place p.connections p.nodes.size [] p.frontier).length := by
    rcases length_place_or_mem p.frontier_sound (full_frontier hsize) with hlength | hmem
    · exact Nat.le_of_eq hlength.symm
    · refine size_le_length hsize fun id => ?_
      -- A node all of whose sources are placed waits for none.
      induction id using hacyclic.wellFounded.induction with
      | h id ih =>
        intro hid
        refine hmem id hid (List.countP_eq_zero.2 fun c hc hheld => ?_)
        obtain ⟨rfl, hsource⟩ := of_decide_eq_true hheld
        exact hsource (ih c.source ⟨c, hc, rfl, rfl⟩ (hp c hc).1)
  exact ⟨_, by rw [order, if_neg (Nat.not_lt.2 hlength)]⟩

end Bytebeat.Patch
