import Bytebeat.Patch.Order
import Mathlib.Data.List.Perm.Basic
import Mathlib.Data.Finset.Card

/-!
# The order of evaluation lists each node once

`Frontier.Sound` is the invariant of placing nodes: the degrees count the
connections whose source is not yet placed, no node is placed or ready twice,
and what is placed or ready has no source left to wait for. Placing a node
takes its connections off one at a time (`Frontier.Sound.release`); the order
found therefore has every node of the patch in it, once (`order_nodup`,
`mem_order_iff`).
-/

namespace Bytebeat.Patch

/-- The number of connections into a node from nodes that are not placed. -/
def held (connections : List Connection) (placed : List NodeId) (id : NodeId) : Nat :=
  connections.countP fun c => c.target = id ∧ c.source ∉ placed

theorem held_cons (c : Connection) (cs : List Connection) (placed : List NodeId) (id : NodeId) :
    held (c :: cs) placed id =
      (if c.target = id ∧ c.source ∉ placed then 1 else 0) + held cs placed id := by
  rw [held, List.countP_cons, Nat.add_comm]
  simp only [held, decide_eq_true_eq]

theorem held_append (cs cs' : List Connection) (placed : List NodeId) (id : NodeId) :
    held (cs ++ cs') placed id = held cs placed id + held cs' placed id := List.countP_append

namespace Frontier

/-- The frontier of `n` nodes when those in `placed` are placed and each node waits for `waits` more
connections. -/
structure Sound (n : Nat) (waits : NodeId → Nat) (placed : List NodeId) (f : Frontier) : Prop where
  degree : ∀ id : NodeId, id.toNat < n → f.degrees[id.toNat]? = some (waits id)
  size : f.degrees.size = n
  nodup : (placed ++ f.ready).Nodup
  lt : ∀ id ∈ placed ++ f.ready, id.toNat < n
  free : ∀ id ∈ placed ++ f.ready, waits id = 0

theorem Sound.congr {n : Nat} {waits waits' : NodeId → Nat} {placed : List NodeId} {f : Frontier}
    (h : f.Sound n waits placed) (heq : ∀ id : NodeId, id.toNat < n → waits' id = waits id) :
    f.Sound n waits' placed where
  degree id hid := by rw [heq id hid, h.degree id hid]
  size := h.size
  nodup := h.nodup
  lt := h.lt
  free id hid := by rw [heq id (h.lt id hid), h.free id hid]

theorem release_of_waits {f : Frontier} {c : Connection} {left : Nat}
    (h : f.degrees[c.target.toNat]? = some left) :
    f.release c.source c =
      { degrees := f.degrees.setIfInBounds c.target.toNat (left - 1)
        ready := if left - 1 = 0 then c.target :: f.ready else f.ready } := by
  obtain ⟨hlt, rfl⟩ := Array.getElem?_eq_some_iff.1 h
  simp [release, hlt, Array.setIfInBounds]

theorem release_of_not {f : Frontier} {source : NodeId} {c : Connection}
    (h : ¬(c.source = source ∧ c.target.toNat < f.degrees.size)) : f.release source c = f :=
  dif_neg h

theorem Sound.release_target {n : Nat} {waits : NodeId → Nat} {placed : List NodeId} {f : Frontier}
    (h : f.Sound n waits placed) {c : Connection} (hlt : c.target.toNat < n)
    (hpos : 0 < waits c.target) :
    (f.release c.source c).Sound n (fun id => if id = c.target then waits id - 1 else waits id)
      placed := by
  rw [release_of_waits (h.degree c.target hlt)]
  -- A node that still waits for a connection is neither placed nor ready.
  have hfresh : c.target ∉ placed ++ f.ready := fun hmem =>
    absurd (h.free _ hmem) (Nat.ne_of_gt hpos)
  have hmem : ∀ id,
      id ∈ placed ++ (if waits c.target - 1 = 0 then c.target :: f.ready else f.ready) →
      id = c.target ∧ waits c.target - 1 = 0 ∨ id ≠ c.target ∧ id ∈ placed ++ f.ready := by
    intro id hid
    split at hid
    · rename_i hzero
      rcases List.mem_cons.1 (List.perm_middle.mem_iff.1 hid) with rfl | hid
      · exact .inl ⟨rfl, hzero⟩
      · exact .inr ⟨fun heq => hfresh (heq ▸ hid), hid⟩
    · exact .inr ⟨fun heq => hfresh (heq ▸ hid), hid⟩
  refine ⟨fun id hid => ?_, by simp [h.size], ?_, fun id hid => ?_, fun id hid => ?_⟩
  · by_cases heq : id = c.target
    · simp [heq, h.size, hlt]
    · have hne : c.target.toNat ≠ id.toNat := fun hn => heq (UInt16.toNat_inj.1 hn.symm)
      rw [Array.getElem?_setIfInBounds_ne hne, h.degree id hid, if_neg heq]
  · split
    · exact List.perm_middle.nodup_iff.2 (List.nodup_cons.2 ⟨hfresh, h.nodup⟩)
    · exact h.nodup
  · rcases hmem id hid with ⟨rfl, -⟩ | ⟨-, hid⟩
    · exact hlt
    · exact h.lt id hid
  · rcases hmem id hid with ⟨rfl, hzero⟩ | ⟨hne, hid⟩
    · rw [if_pos rfl, hzero]
    · rw [if_neg hne, h.free id hid]

/-- What taking off one connection keeps, taking off all connections from a node keeps that has just
been placed. -/
theorem foldl_release_induction {n : Nat} {placed : List NodeId} {source : NodeId}
    (hsource : source ∉ placed) {P : (NodeId → Nat) → Frontier → Prop}
    (size : ∀ {waits f}, P waits f → f.degrees.size = n)
    (congr : ∀ {waits waits' f}, P waits f →
      (∀ id : NodeId, id.toNat < n → waits' id = waits id) → P waits' f)
    (target : ∀ {waits f c}, P waits f → c.target.toNat < n → 0 < waits c.target →
      P (fun id => if id = c.target then waits id - 1 else waits id) (f.release c.source c))
    (cs : List Connection) :
    ∀ {others : NodeId → Nat} {f : Frontier}, P (fun id => others id + held cs placed id) f →
      P (fun id => others id + held cs (source :: placed) id)
        (cs.foldl (Frontier.release source) f) := by
  induction cs with
  | nil => exact fun h => h
  | cons c cs ih =>
    intro others f h
    -- `c` counts among the others from now on, unless it is taken off.
    have hstep : P (fun id => others id +
        (if c.target = id ∧ c.source ∉ source :: placed then 1 else 0) + held cs placed id)
        (f.release source c) := by
      by_cases hc : c.source = source ∧ c.target.toNat < n
      · obtain ⟨rfl, hlt⟩ := hc
        refine congr (target h hlt ?_) fun id _ => ?_
        · rw [held_cons, if_pos ⟨rfl, hsource⟩]
          omega
        · rw [held_cons, if_neg fun h => h.2 List.mem_cons_self]
          by_cases heq : id = c.target
          · rw [if_pos heq, if_pos ⟨heq.symm, hsource⟩]
            omega
          · rw [if_neg heq, if_neg fun h => heq h.1.symm]
            omega
      · rw [release_of_not (size h ▸ hc)]
        refine congr h fun id hid => ?_
        have hiff : (c.target = id ∧ c.source ∉ source :: placed) ↔
            (c.target = id ∧ c.source ∉ placed) := by
          refine and_congr_right fun heq =>
            not_congr (List.mem_cons.trans (or_iff_right fun hs => ?_))
          exact hc ⟨hs, heq ▸ hid⟩
        simp only [held_cons, hiff, Nat.add_assoc]
    refine congr (ih hstep) fun id _ => ?_
    rw [held_cons, Nat.add_assoc]

variable {n : Nat} {cs : List Connection} {placed ready : List NodeId} {id : NodeId}
  {f : Frontier}

/-- The first of the nodes that are ready has all its sources placed. -/
theorem Sound.source_mem (h : f.Sound n (held cs placed) placed) (hid : id ∈ f.ready) :
    ∀ c ∈ cs, c.target = id → c.source ∈ placed := by
  intro c hc htarget
  have hfree := h.free id (List.mem_append_right _ hid)
  rw [held, List.countP_eq_zero] at hfree
  have hnot := hfree c hc
  rw [decide_eq_true_eq] at hnot
  exact Decidable.not_not.1 fun hsource => hnot ⟨htarget, hsource⟩

theorem Sound.not_mem_of_ready {waits : NodeId → Nat} (h : f.Sound n waits placed)
    (hid : id ∈ f.ready) : id ∉ placed :=
  fun hmem => (List.nodup_append'.1 h.nodup).2.2 hmem hid

theorem Sound.taken (h : f.Sound n (held cs placed) placed) (hready : f.ready = id :: ready) :
    ({ f with ready } : Frontier).Sound n (fun k => 0 + held cs placed k) (id :: placed) := by
  have hperm : (id :: placed ++ ready).Perm (placed ++ f.ready) := by
    rw [hready]
    exact List.perm_middle.symm
  exact ⟨fun k hk => by rw [Nat.zero_add]; exact h.degree k hk, h.size,
    hperm.nodup_iff.2 h.nodup, fun k hk => h.lt k (hperm.mem_iff.1 hk),
    fun k hk => by rw [Nat.zero_add]; exact h.free k (hperm.mem_iff.1 hk)⟩

theorem Sound.place (h : f.Sound n (held cs placed) placed) (hready : f.ready = id :: ready) :
    (cs.foldl (Frontier.release id) { f with ready }).Sound n (held cs (id :: placed))
      (id :: placed) := by
  have hid : id ∉ placed := h.not_mem_of_ready (hready ▸ List.mem_cons_self)
  have hplaced := foldl_release_induction hid (P := fun waits f => f.Sound n waits (id :: placed))
    Sound.size Sound.congr (fun h hlt hpos => h.release_target hlt hpos) cs (h.taken hready)
  exact hplaced.congr fun k _ => (Nat.zero_add _).symm

end Frontier

/-! ## Placing all nodes -/

theorem place_sound {n : Nat} (cs : List Connection) :
    ∀ {fuel : Nat} {placed : List NodeId} {f : Frontier},
      f.Sound n (held cs placed) placed →
      (place cs fuel placed f).Nodup ∧ ∀ id ∈ place cs fuel placed f, id.toNat < n := by
  intro fuel
  induction fuel with
  | zero =>
    exact fun h =>
      ⟨(List.nodup_append.1 h.nodup).1, fun id hid => h.lt id (List.mem_append_left _ hid)⟩
  | succ fuel ih =>
    intro placed f h
    unfold place
    split
    · exact ⟨(List.nodup_append.1 h.nodup).1, fun id hid => h.lt id (List.mem_append_left _ hid)⟩
    · rename_i id ready hready
      exact ih (h.place hready)

theorem length_le_of_lt {ids : List NodeId} {n : Nat} (hnodup : ids.Nodup)
    (hlt : ∀ id ∈ ids, id.toNat < n) : ids.length ≤ n := by
  have hnodup : (ids.map UInt16.toNat).Nodup := hnodup.map fun _ _ heq => UInt16.toNat_inj.1 heq
  have hsub : ids.map UInt16.toNat ⊆ List.range n := by
    intro i hi
    obtain ⟨id, hid, rfl⟩ := List.mem_map.1 hi
    exact List.mem_range.2 (hlt id hid)
  have hlength := (List.subperm_of_subset hnodup hsub).length_le
  rwa [List.length_map, List.length_range] at hlength

/-- Each connection into a node counts once, in whatever it is counted. -/
theorem getElem?_foldl_modify {α : Type} (count : α → α) (cs : List Connection) (i : Nat) :
    ∀ counts : Array α,
      (cs.foldl (fun counts c => counts.modify c.target.toNat count) counts)[i]? =
        counts[i]?.map count^[cs.countP (·.target.toNat = i)] := by
  induction cs with
  | nil => exact fun counts => Option.map_id'.symm
  | cons c cs ih =>
    intro counts
    rw [List.foldl_cons, ih, Array.getElem?_modify, List.countP_cons]
    by_cases hi : c.target.toNat = i
    · simp only [hi, if_true, Option.map_map, decide_true, Function.iterate_succ]
    · simp only [hi, if_false, decide_false, Bool.false_eq_true, Nat.add_zero]

theorem getElem?_inDegrees_countP (p : Patch) {i : Nat} (hi : i < p.nodes.size) :
    p.inDegrees[i]? = some (p.connections.countP (·.target.toNat = i)) := by
  have hcount : ∀ n : Nat, (· + 1)^[n] 0 = n := by
    intro n
    induction n with
    | zero => rfl
    | succ n ih => rw [Function.iterate_succ_apply', ih]
  rw [inDegrees, getElem?_foldl_modify, Array.getElem?_replicate, if_pos hi, Option.map_some,
    hcount]

theorem inDegrees_le {p : Patch} {i degree : Nat} (hi : i < p.nodes.size)
    (h : p.inDegrees[i]? = some degree) : degree ≤ p.connections.length := by
  rw [getElem?_inDegrees_countP p hi, Option.some.injEq] at h
  exact h ▸ List.countP_le_length

theorem getElem?_inDegrees (p : Patch) {id : NodeId} (hid : id.toNat < p.nodes.size) :
    p.inDegrees[id.toNat]? = some (held p.connections [] id) := by
  rw [getElem?_inDegrees_countP p hid, held]
  simp only [UInt16.toNat_inj, List.not_mem_nil, not_false_eq_true, and_true]

theorem size_inDegrees (p : Patch) : p.inDegrees.size = p.nodes.size := by
  have hfold : ∀ (cs : List Connection) (degrees : Array Nat),
      (cs.foldl (fun degrees c => degrees.modify c.target.toNat (· + 1)) degrees).size =
        degrees.size := by
    intro cs
    induction cs with
    | nil => exact fun _ => rfl
    | cons c cs ih => intro degrees; rw [List.foldl_cons, ih, Array.size_modify]
  rw [inDegrees, hfold, Array.size_replicate]

theorem mem_ready_frontier {p : Patch} {id : NodeId} (h : id ∈ p.frontier.ready) :
    id.toNat < p.nodes.size ∧ p.inDegrees[id.toNat]? = some 0 := by
  simp only [frontier, List.mem_map, List.mem_filter, List.mem_range, beq_iff_eq] at h
  obtain ⟨i, ⟨hi, hzero⟩, rfl⟩ := h
  have hlt : i < UInt16.size := Nat.lt_trans hi (Nat.mod_lt _ (by decide))
  rw [UInt16.toNat_ofNat_of_lt' hlt]
  exact ⟨Nat.lt_of_lt_of_le hi (Nat.mod_le _ _), hzero⟩

theorem frontier_sound (p : Patch) :
    p.frontier.Sound p.nodes.size (held p.connections []) [] where
  degree id hid := p.getElem?_inDegrees hid
  size := p.size_inDegrees
  nodup := by
    refine List.Nodup.map_on (fun i hi j hj heq => ?_) (List.nodup_range.filter _)
    have hsmall : ∀ k ∈ (List.range (p.nodes.size % UInt16.size)).filter
        (fun i => p.inDegrees[i]? == some 0), k < UInt16.size := fun k hk =>
      Nat.lt_trans (List.mem_range.1 (List.mem_of_mem_filter hk)) (Nat.mod_lt _ (by decide))
    rw [← UInt16.toNat_ofNat_of_lt' (hsmall i hi), heq, UInt16.toNat_ofNat_of_lt' (hsmall j hj)]
  lt id hid := (mem_ready_frontier hid).1
  free id hid := by
    obtain ⟨hlt, hzero⟩ := mem_ready_frontier hid
    rw [p.getElem?_inDegrees hlt, Option.some.injEq] at hzero
    exact hzero

theorem order_eq_ok {p : Patch} {ids : List NodeId} (h : p.order = .ok ids) :
    ids = (place p.connections p.nodes.size [] p.frontier).reverse ∧ p.nodes.size ≤ ids.length := by
  simp only [order] at h
  split at h
  · cases h
  · rename_i hlength
    cases h
    exact ⟨rfl, by rw [List.length_reverse]; exact Nat.le_of_not_lt hlength⟩

theorem eq_cycle_of_order {p : Patch} {e : WiringError} (h : p.order = .error e) :
    e = .cycle := by
  simp only [order] at h
  split at h
  · cases h; rfl
  · cases h

theorem order_nodup {p : Patch} {ids : List NodeId} (h : p.order = .ok ids) : ids.Nodup := by
  rw [(order_eq_ok h).1]
  exact List.nodup_reverse.2 (place_sound _ p.frontier_sound).1

theorem lt_of_mem_order {p : Patch} {ids : List NodeId} (h : p.order = .ok ids) {id : NodeId}
    (hid : id ∈ ids) : id.toNat < p.nodes.size := by
  rw [(order_eq_ok h).1, List.mem_reverse] at hid
  exact (place_sound _ p.frontier_sound).2 id hid

/-- An order has all places of the patch in it: as many different numbers below their count as
there are leave none out. -/
theorem exists_mem_order {p : Patch} {ids : List NodeId} (h : p.order = .ok ids) {i : Nat}
    (hi : i < p.nodes.size) : ∃ id ∈ ids, id.toNat = i := by
  have hnodup : (ids.map UInt16.toNat).Nodup :=
    (order_nodup h).map fun _ _ heq => UInt16.toNat_inj.1 heq
  have hsub : (ids.map UInt16.toNat).toFinset ⊆ Finset.range p.nodes.size := by
    intro j hj
    obtain ⟨id, hid, rfl⟩ := List.mem_map.1 (List.mem_toFinset.1 hj)
    exact Finset.mem_range.2 (lt_of_mem_order h hid)
  have hcard : (Finset.range p.nodes.size).card ≤ (ids.map UInt16.toNat).toFinset.card := by
    rw [Finset.card_range, List.toFinset_card_of_nodup hnodup, List.length_map]
    exact (order_eq_ok h).2
  have hmem : i ∈ (ids.map UInt16.toNat).toFinset := by
    rw [Finset.eq_of_subset_of_card_le hsub hcard]
    exact Finset.mem_range.2 hi
  exact List.mem_map.1 (List.mem_toFinset.1 hmem)

theorem mem_order_iff {p : Patch} {ids : List NodeId} (h : p.order = .ok ids) (id : NodeId) :
    id ∈ ids ↔ id.toNat < p.nodes.size := by
  refine ⟨lt_of_mem_order h, fun hid => ?_⟩
  obtain ⟨id', hmem, heq⟩ := exists_mem_order h hid
  rwa [← UInt16.toNat_inj.1 heq]

theorem size_le_of_order {p : Patch} {ids : List NodeId} (h : p.order = .ok ids) :
    p.nodes.size ≤ UInt16.size := by
  refine Nat.le_of_not_lt fun hlt => ?_
  obtain ⟨id, -, heq⟩ := exists_mem_order h hlt
  exact absurd id.toNat_lt (by rw [heq]; decide)

end Bytebeat.Patch
