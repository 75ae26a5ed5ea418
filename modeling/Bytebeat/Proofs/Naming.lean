import Bytebeat.Proofs.Numbering

/-!
# What ids name

A patch that is built by edits in any order (`Patch.Edit`) gives the `n`-th node
the id `n` modulo `2 ^ 16`. The first `2 ^ 16` nodes have ids of their own, and
each of these names its node for good, with the text that was set for it last
(`Patch.ids_name_nodes`). A node added after them has the id of an earlier one,
which the id goes on naming (`Patch.node?_addNode_of_le`).
-/

namespace Bytebeat

/-! ## Texts set one after the other -/

/-- The kind of a node after texts have been set for it. -/
def NodeKind.retexted : NodeKind → List String → NodeKind
  | expression text, texts => .expression (texts.getLastD text)
  | output stereo, _ => .output stereo

theorem NodeKind.retexted_nil (kind : NodeKind) : kind.retexted [] = kind := by
  cases kind <;> rfl

theorem NodeKind.retexted_append (kind : NodeKind) (texts texts' : List String) :
    kind.retexted (texts ++ texts') = (kind.retexted texts).retexted texts' := by
  cases kind with
  | expression old =>
    refine congrArg NodeKind.expression ?_
    simp only [List.getLastD_eq_getLast?, List.getLast?_append, Option.getD_or]
  | output stereo => rfl

namespace Patch

inductive Edit where
  | add (kind : NodeKind)
  | connect (c : Connection)
  | setExpression (id : NodeId) (text : String)

/-- Makes a change: the id of the node that it adds, if it adds one, and the patch after it. -/
def edit (p : Patch) : Edit → List NodeId × Patch
  | .add kind =>
    let (p, id) := p.addNode kind
    ([id], p)
  | .connect c => ([], p.connect c)
  | .setExpression id text => ([], (p.setExpression? id text).getD p)

def edits (p : Patch) : List Edit → List NodeId × Patch
  | [] => ([], p)
  | e :: es =>
    let (ids, p) := p.edit e
    let (later, p) := p.edits es
    (ids ++ later, p)

def Edit.texts (id : NodeId) : Edit → List String
  | .setExpression node text => if node = id then [text] else []
  | .add _ | .connect _ => []

variable {p : Patch} {id : NodeId} {own : NodeId} {kind : NodeKind}

/-! ## Nodes are kept -/

theorem size_setExpression? (p : Patch) (id : NodeId) (text : String) :
    ((p.setExpression? id text).getD p).nodes.size = p.nodes.size := by
  rw [setExpression?]
  split
  · exact Array.size_setIfInBounds
  · rfl

theorem node?_addNode (h : p.node? id = some ⟨own, kind⟩) (kind' : NodeKind) :
    (p.addNode kind').1.node? id = some ⟨own, kind⟩ := by
  have hlt := (Array.getElem?_eq_some_iff.1 h).1
  rw [node?, addNode, Array.getElem?_push_lt hlt, ← Array.getElem?_eq_getElem hlt]
  exact h

theorem node?_setExpression? (h : p.node? id = some ⟨own, kind⟩) (node : NodeId) (text : String) :
    ((p.setExpression? node text).getD p).node? id =
      some ⟨own, kind.retexted (Edit.texts id (.setExpression node text))⟩ := by
  by_cases hnode : node = id
  · subst hnode
    have hlt := (Array.getElem?_eq_some_iff.1 h).1
    rw [Edit.texts, if_pos rfl, setExpression?, h]
    cases kind with
    | expression old => simp [node?, hlt, NodeKind.retexted]
    | output stereo => exact h
  · have hne : node.toNat ≠ id.toNat := fun heq => hnode (UInt16.toNat_inj.1 heq)
    rw [Edit.texts, if_neg hnode, NodeKind.retexted_nil, setExpression?]
    split
    · simp only [Option.getD_some, node?, Array.getElem?_setIfInBounds_ne hne]
      exact h
    · exact h

theorem node?_edit (h : p.node? id = some ⟨own, kind⟩) (e : Edit) :
    (p.edit e).2.node? id = some ⟨own, kind.retexted (e.texts id)⟩ := by
  cases e with
  | add kind' => exact kind.retexted_nil.symm ▸ node?_addNode h kind'
  | connect c => exact kind.retexted_nil.symm ▸ h
  | setExpression node text => exact node?_setExpression? h node text

theorem node?_edits (h : p.node? id = some ⟨own, kind⟩) (es : List Edit) :
    (p.edits es).2.node? id = some ⟨own, kind.retexted (es.flatMap (Edit.texts id))⟩ := by
  induction es generalizing p kind with
  | nil => exact kind.retexted_nil.symm ▸ h
  | cons e es ih =>
    rw [List.flatMap_cons, NodeKind.retexted_append]
    exact ih (node?_edit h e)

/-! ## Ids are given in order -/

theorem edit_eq (p : Patch) (e : Edit) :
    (p.edit e).1 = (List.range' p.nodes.size (p.edit e).1.length).map UInt16.ofNat ∧
      (p.edit e).2.nodes.size = p.nodes.size + (p.edit e).1.length := by
  cases e with
  | add kind => exact ⟨rfl, Array.size_push _⟩
  | connect c => exact ⟨rfl, rfl⟩
  | setExpression id text => exact ⟨rfl, size_setExpression? p id text⟩

theorem edits_eq (p : Patch) (es : List Edit) :
    (p.edits es).1 = (List.range' p.nodes.size (p.edits es).1.length).map UInt16.ofNat ∧
      (p.edits es).2.nodes.size = p.nodes.size + (p.edits es).1.length := by
  induction es generalizing p with
  | nil => exact ⟨rfl, rfl⟩
  | cons e es ih =>
    obtain ⟨hids, hsize⟩ := p.edit_eq e
    obtain ⟨hlater, hsize'⟩ := ih (p.edit e).2
    simp only [edits, List.length_append]
    refine ⟨?_, by rw [hsize', hsize, Nat.add_assoc]⟩
    rw [← List.range'_append_1, List.map_append, ← hids, ← hsize, ← hlater]

theorem size_edits (es : List Edit) :
    (empty.edits es).2.nodes.size = (empty.edits es).1.length :=
  (empty.edits_eq es).2.trans (Nat.zero_add _)

theorem mem_ids_iff (es : List Edit) (id : NodeId) :
    id ∈ (empty.edits es).1 ↔ id.toNat < (empty.edits es).1.length := by
  have hempty : empty.nodes.size = 0 := rfl
  rw [(empty.edits_eq es).1, List.length_map, List.length_range', List.mem_map, hempty]
  simp only [List.mem_range'_1, Nat.zero_add, Nat.zero_le, true_and]
  constructor
  · rintro ⟨i, hlt, rfl⟩
    rw [UInt16.toNat_ofNat']
    exact Nat.lt_of_le_of_lt (Nat.mod_le _ _) hlt
  · exact fun hlt => ⟨id.toNat, hlt, UInt16.ofNat_toNat⟩

/-! ## What an id names -/

theorem node?_addNode_self (h : p.nodes.size < UInt16.size) (kind : NodeKind) :
    (p.addNode kind).1.node? (p.addNode kind).2 = some ⟨(p.addNode kind).2, kind⟩ := by
  rw [node?, addNode, UInt16.toNat_ofNat_of_lt' h, Array.getElem?_push_size]

/-- A node that is added to as many as there are ids has the id of an earlier one. -/
theorem node?_addNode_of_le (h : UInt16.size ≤ p.nodes.size) (kind : NodeKind) :
    ∃ earlier, p.node? (p.addNode kind).2 = some earlier ∧
      (p.addNode kind).1.node? (p.addNode kind).2 = some earlier := by
  have hlt : (p.addNode kind).2.toNat < p.nodes.size :=
    Nat.lt_of_lt_of_le (UInt16.toNat_lt_size _) h
  exact ⟨_, Array.getElem?_eq_getElem hlt, node?_addNode (Array.getElem?_eq_getElem hlt) kind⟩

/-- **An id names the node that it was given for**, if there are ids enough. After any edits of the
empty patch, a node that is added has an id of its own exactly if fewer than `2 ^ 16` have been
given. Whatever edits follow, this id then leads to that node, which bears it, and to the text
that has been set for it last. -/
theorem ids_name_nodes (before : List Edit) (kind : NodeKind) :
    let given := (empty.edits before).1
    let added := (empty.edits before).2.addNode kind
    (added.2 ∉ given ↔ given.length < UInt16.size) ∧
      (given.length < UInt16.size → ∀ later,
        let texts := later.flatMap (Edit.texts added.2)
        (added.1.edits later).2.node? added.2 = some ⟨added.2, kind.retexted texts⟩ ∧
          (added.1.edits later).2.expression? added.2 =
            match kind with
            | .expression text => some (texts.getLastD text)
            | .output _ => none) := by
  intro given added
  have hsize : (empty.edits before).2.nodes.size = given.length := size_edits before
  refine ⟨?_, fun hlt later => ?_⟩
  · have hid : added.2.toNat = given.length % UInt16.size := hsize ▸ UInt16.toNat_ofNat'
    rw [mem_ids_iff, hid, Nat.not_lt]
    constructor
    · exact fun hle => Nat.lt_of_le_of_lt hle (Nat.mod_lt _ (by decide))
    · exact fun hlt => Nat.le_of_eq (Nat.mod_eq_of_lt hlt).symm
  · have hnode := node?_edits (node?_addNode_self (hsize ▸ hlt) kind) later
    refine ⟨hnode, ?_⟩
    rw [expression?, hnode]
    cases kind <;> rfl

theorem length_edits_replicate (n : Nat) (p : Patch) (kind : NodeKind) :
    (p.edits (List.replicate n (.add kind))).1.length = n := by
  induction n generalizing p with
  | zero => rfl
  | succ n ih =>
    rw [List.replicate_succ, edits, List.length_append, ih]
    exact Nat.add_comm 1 n

theorem node?_edits_replicate (n : Nat) (kind : NodeKind) :
    (empty.edits (List.replicate (n + 1) (.add kind))).2.node? 0 = some ⟨0, kind⟩ := by
  have hfirst : (empty.addNode kind).1.node? 0 = some ⟨0, kind⟩ := rfl
  have hrest := node?_edits hfirst (List.replicate n (.add kind))
  have hnone : (List.replicate n (Edit.add kind)).flatMap (Edit.texts 0) = [] :=
    List.flatMap_eq_nil_iff.2 fun e he => (List.eq_of_mem_replicate he).symm ▸ rfl
  rw [hnone, NodeKind.retexted_nil] at hrest
  exact hrest

/-- The id of the first node is given again after `2 ^ 16` nodes, and it leads to the first. -/
theorem ids_repeat : ∃ before : List Edit,
    let added := (empty.edits before).2.addNode (.expression "b")
    added.2 ∈ (empty.edits before).1 ∧ added.1.expression? added.2 = some "a" := by
  -- The number of nodes is kept a variable, so that no list of this length is built.
  have hnodes : ∀ n, n + 1 = UInt16.size →
      let before := List.replicate (n + 1) (.add (.expression "a"))
      let added := (empty.edits before).2.addNode (.expression "b")
      added.2 ∈ (empty.edits before).1 ∧ added.1.expression? added.2 = some "a" := by
    intro n hn before added
    have hlength : (empty.edits before).1.length = UInt16.size :=
      (length_edits_replicate _ _ _).trans hn
    have hid : added.2 = 0 := by
      show UInt16.ofNat (empty.edits before).2.nodes.size = 0
      rw [size_edits, hlength]
      rfl
    have hfirst := node?_edits_replicate n (.expression "a")
    rw [hid, mem_ids_iff, hlength, expression?, node?_addNode hfirst]
    exact ⟨by decide, rfl⟩
  exact ⟨_, hnodes 65535 rfl⟩

end Patch

end Bytebeat
