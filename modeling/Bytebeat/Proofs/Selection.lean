import Bytebeat.Proofs.Desk

/-!
# Selections from a history

What has compiled for a node and is not yet outlived by a newer program is
installed, queued in the mailbox or waits at the entry; `Entry.chain` reads the
three in turn. A call installs one of these programs, or adds the one that it
compiles in place of the one that waits (`Advances`). Either way they stay a
selection of what has compiled for the node, in order and up to the newest, in
which what is installed never goes back (`Selects.advance`).
-/

namespace Bytebeat

/-! ## Selections from a history -/

/-- What one call does to the programs on their way to a node: it installs one, so that those before
it are gone, or it adds one to those that have arrived, in place of the rest. -/
inductive Advances (chain : List Program) : List Program → List Program → Prop where
  | install {n : Nat} : n < chain.length → Advances chain [] (chain.drop n)
  | publish {arrived : List Program} (p : Program) :
      arrived ≠ [] → arrived <+: chain → Advances chain [p] (arrived ++ [p])

theorem Advances.trans {chain chain' chain'' : List Program} (h : Advances chain [] chain')
    (h' : Advances chain' [] chain'') : Advances chain [] chain'' := by
  cases h with
  | @install n hn =>
    cases h' with
    | @install m hm =>
      rw [List.drop_drop]
      rw [List.length_drop] at hm
      exact .install (by omega)

/-- The programs of a chain stand in a history at increasing positions, the last at its end. -/
structure Selects (history : List Program) (positions : List Nat) (chain : List Program) :
    Prop where
  increasing : positions.Pairwise (· < ·)
  chosen : positions.map (history[·]?) = chain.map some
  newest : positions.getLast? = some (history.length - 1)

namespace Selects

variable {history : List Program} {positions : List Nat} {chain : List Program}

theorem length_eq (h : Selects history positions chain) : positions.length = chain.length := by
  have hlength := congrArg List.length h.chosen
  rwa [List.length_map, List.length_map] at hlength

theorem lt_length (h : Selects history positions chain) {i : Nat} (hi : i ∈ positions) :
    i < history.length := by
  have hmem : history[i]? ∈ chain.map some := h.chosen ▸ List.mem_map_of_mem hi
  obtain ⟨p, -, hp⟩ := List.mem_map.1 hmem
  exact (List.getElem?_eq_some_iff.1 hp.symm).1

theorem headD_mem (h : Selects history positions chain) : positions.headD 0 ∈ positions := by
  have hnewest := h.newest
  cases positions with
  | nil => cases hnewest
  | cons i rest => exact List.mem_cons_self

theorem headD_le (h : Selects history positions chain) {i : Nat} (hi : i ∈ positions) :
    positions.headD 0 ≤ i := by
  have hincreasing := h.increasing
  cases positions with
  | nil => cases hi
  | cons j rest =>
    rcases List.mem_cons.1 hi with rfl | hi
    · exact Nat.le_refl _
    · exact Nat.le_of_lt ((List.pairwise_cons.1 hincreasing).1 i hi)

theorem install (h : Selects history positions chain) {n : Nat} (hn : n < chain.length) :
    Selects history (positions.drop n) (chain.drop n) := by
  refine ⟨h.increasing.sublist (List.drop_sublist n _), ?_, ?_⟩
  · rw [List.map_drop, h.chosen, List.map_drop]
  · rw [List.getLast?_drop, if_neg (Nat.not_le.2 (h.length_eq ▸ hn)), h.newest]

theorem publish (h : Selects history positions chain) {arrived : List Program}
    (harrived : arrived <+: chain) (p : Program) :
    Selects (history ++ [p]) (positions.take arrived.length ++ [history.length])
      (arrived ++ [p]) := by
  refine ⟨List.pairwise_append.2 ⟨h.increasing.sublist (List.take_sublist _ _),
    List.pairwise_singleton _ _, fun i hi j hj => ?_⟩, ?_, ?_⟩
  · rw [List.mem_singleton.1 hj]
    exact h.lt_length (List.mem_of_mem_take hi)
  · have hold : (positions.take arrived.length).map ((history ++ [p])[·]?) =
        (positions.take arrived.length).map (history[·]?) :=
      List.map_congr_left fun i hi =>
        List.getElem?_append_left (h.lt_length (List.mem_of_mem_take hi))
    rw [List.map_append, hold, List.map_take, h.chosen, ← List.map_take,
      ← List.prefix_iff_eq_take.1 harrived]
    simp
  · simp

/-- The programs stay a selection, in which the first never comes before what was first. -/
theorem advance (h : Selects history positions chain) {added chain' : List Program}
    (hadvances : Advances chain added chain') :
    ∃ positions', Selects (history ++ added) positions' chain' ∧
      positions.headD 0 ≤ positions'.headD 0 := by
  cases hadvances with
  | @install n hn =>
    have h' := h.install hn
    refine ⟨positions.drop n, by rwa [List.append_nil], ?_⟩
    exact h.headD_le (List.mem_of_mem_drop h'.headD_mem)
  | @publish arrived p hne harrived =>
    have h' := h.publish harrived p
    refine ⟨_, h', ?_⟩
    rcases List.mem_append.1 h'.headD_mem with hmem | hmem
    · exact h.headD_le (List.mem_of_mem_take hmem)
    · rw [List.mem_singleton.1 hmem]
      exact Nat.le_of_lt (h.lt_length h.headD_mem)

theorem getLast?_eq (h : Selects history positions chain) : chain.getLast? = history.getLast? := by
  have hlast := congrArg List.getLast? h.chosen
  rw [List.getLast?_map, List.getLast?_map, h.newest, Option.map_some,
    ← List.getLast?_eq_getElem?] at hlast
  cases hchain : chain.getLast? with
  | none =>
    rw [hchain] at hlast
    cases hlast
  | some p =>
    rw [hchain] at hlast
    exact (Option.some.inj hlast).symm

end Selects

/-! ## The programs on their way to a node -/

namespace Entry

/-- The programs at a node, oldest first: the one installed, those queued and the one that waits. -/
def chain (e : Entry) (m : Mailbox) : List Program := m.current :: m.inbound ++ e.waiting.toList

theorem advances_refl (e : Entry) (m : Mailbox) : Advances (e.chain m) [] (e.chain m) :=
  .install (n := 0) (Nat.succ_pos _)

/-- A program takes the place of what waits, whether the mailbox accepts it or not. -/
theorem chain_publishTo (e : Entry) (p : Program) (m : Mailbox) :
    (e.publishTo p m).1.chain (e.publishTo p m).2 = (m.current :: m.inbound) ++ [p] := by
  rw [publishTo, chain]
  rcases Nat.lt_or_ge m.pending m.capacity with h | h
  · rw [Mailbox.publish_of_room h]
    exact List.append_nil _
  · rw [Mailbox.publish_of_full h]
    rfl

theorem advances_publishTo (e : Entry) (p : Program) (m : Mailbox) :
    Advances (e.chain m) [p] ((e.publishTo p m).1.chain (e.publishTo p m).2) := by
  rw [chain_publishTo]
  exact .publish p (List.cons_ne_nil _ _) (List.prefix_append _ _)

theorem chain_flushTo (e : Entry) (m : Mailbox) :
    (e.flushTo m).1.chain (e.flushTo m).2 = e.chain m := by
  rw [flushTo]
  split
  · rename_i p hp
    rw [chain_publishTo, chain, hp]
    rfl
  · rfl

theorem advances_refresh (e : Entry) (m : Mailbox) :
    Advances (e.chain m) [] (e.chain m.refresh.1) := by
  have hlast : ∀ (p : Program) (ps : List Program),
      (p :: ps).drop ps.length = [ps.getLastD p] := by
    rintro p (_ | ⟨q, qs⟩)
    · rfl
    · rw [List.drop_length_cons (List.cons_ne_nil q qs), List.getLast_eq_getLastD,
        List.getLastD_cons]
  have hchain : e.chain m.refresh.1 = (e.chain m).drop m.inbound.length := by
    rw [chain, chain, List.drop_append_of_le_length (Nat.le_succ _), hlast,
      Mailbox.current_refresh, Mailbox.inbound_refresh]
    rfl
  have hshort : m.inbound.length < (e.chain m).length := by
    rw [chain, List.cons_append, List.length_cons, List.length_append]
    omega
  rw [hchain]
  exact .install hshort

end Entry

end Bytebeat
