import Bytebeat.Patch.File
import Bytebeat.Proofs.Order

/-!
# Numbered patches

Patches whose nodes are named by their places, as those are that are built node
by node or read from a file. In such a patch each expression is listed under the
id by which it is found.
-/

namespace Bytebeat

namespace Patch

/-- Every node is named by its place. -/
def Numbered (p : Patch) : Prop :=
  ∀ i (h : i < p.nodes.size), p.nodes[i].id = UInt16.ofNat i

theorem numbered_addNode {p : Patch} (h : p.Numbered) (kind : NodeKind) :
    (p.addNode kind).1.Numbered := by
  intro i hi
  simp only [addNode, Array.size_push] at hi
  simp only [addNode, Array.getElem_push]
  split
  · exact h i _
  · rw [show i = p.nodes.size by omega]

theorem numbered_ofKinds (kinds : List NodeKind) (connections : List Connection) :
    (ofKinds kinds connections).Numbered := by
  have hfold : ∀ {p : Patch}, p.Numbered →
      (kinds.foldl (fun p kind => (p.addNode kind).1) p).Numbered := by
    induction kinds with
    | nil => exact fun h => h
    | cons kind kinds ih => exact fun h => ih (numbered_addNode h kind)
  exact hfold (p := empty) fun i hi => absurd hi (Nat.not_lt_zero i)

theorem expression?_eq_some_iff {p : Patch} {id : NodeId} {text : String} :
    p.expression? id = some text ↔ ∃ own, p.node? id = some ⟨own, .expression text⟩ := by
  unfold expression?
  split
  · rename_i hnode
    simp [hnode]
  · rename_i hnode
    simp only [reduceCtorEq, false_iff, not_exists]
    exact fun own heq => hnode _ _ heq

theorem setExpression?_eq_none_iff {p : Patch} {id : NodeId} {text : String} :
    p.setExpression? id text = none ↔ (p.expression? id).isSome = false := by
  unfold setExpression? expression?
  rcases p.node? id with _ | ⟨own, _ | _⟩ <;> simp

theorem isSome_expression?_of_setExpression? {p p' : Patch} {id : NodeId} {text : String}
    (h : p.setExpression? id text = some p') (k : NodeId) :
    (p'.expression? k).isSome = (p.expression? k).isSome := by
  unfold setExpression? at h
  split at h
  · rename_i own old hnode
    cases h
    by_cases hk : k = id
    · subst hk
      obtain ⟨hlt, hget⟩ := Array.getElem?_eq_some_iff.1 hnode
      simp [expression?, node?, hlt, hget]
    · have hne : id.toNat ≠ k.toNat := fun heq => hk (UInt16.toNat_inj.1 heq.symm)
      simp [expression?, node?, Array.getElem?_setIfInBounds_ne hne]
  · cases h

theorem mem_expressions_iff {p : Patch} {id : NodeId} {text : String} :
    (id, text) ∈ p.expressions ↔ ⟨id, .expression text⟩ ∈ p.nodes := by
  simp only [expressions, List.mem_filterMap, Array.mem_toList_iff]
  constructor
  · rintro ⟨⟨own, _ | _⟩, hmem, heq⟩ <;> cases heq
    exact hmem
  · exact fun hmem => ⟨_, hmem, rfl⟩

theorem Numbered.mem_expressions_iff {p : Patch} (h : p.Numbered)
    (hsize : p.nodes.size ≤ UInt16.size) {id : NodeId} {text : String} :
    (id, text) ∈ p.expressions ↔ p.expression? id = some text := by
  rw [Patch.mem_expressions_iff, expression?_eq_some_iff]
  constructor
  · intro hmem
    obtain ⟨i, hi, hnode⟩ := Array.getElem_of_mem hmem
    have hid : id = UInt16.ofNat i := by rw [← h i hi, hnode]
    refine ⟨id, ?_⟩
    rw [node?, hid, UInt16.toNat_ofNat_of_lt' (Nat.lt_of_lt_of_le hi hsize),
      Array.getElem?_eq_getElem hi, hnode, hid]
  · rintro ⟨own, hnode⟩
    obtain ⟨hi, hnode⟩ := Array.getElem?_eq_some_iff.1 hnode
    have hown : own = id := by
      have := h _ hi
      rwa [hnode, UInt16.ofNat_toNat] at this
    rw [← hown, ← hnode]
    exact Array.getElem_mem hi

/-! ## Renumbering -/

/-- The patch with every node named by its place. -/
def renumbered (p : Patch) : Patch :=
  { p with nodes := p.nodes.mapIdx fun i n => { n with id := UInt16.ofNat i } }

theorem numbered_renumbered (p : Patch) : p.renumbered.Numbered := by
  intro i h
  simp only [renumbered, Array.getElem_mapIdx]

def kinds (p : Patch) : List NodeKind := p.nodes.toList.map (·.kind)

theorem kinds_renumbered (p : Patch) : p.renumbered.kinds = p.kinds := by
  apply List.ext_getElem
  · simp [kinds, renumbered]
  · intro i h₁ h₂
    simp [kinds, renumbered]

theorem kinds_ofKinds (ks : List NodeKind) (connections : List Connection) :
    (ofKinds ks connections).kinds = ks := by
  have hfold : ∀ p : Patch, (ks.foldl (fun p kind => (p.addNode kind).1) p).kinds = p.kinds ++ ks := by
    induction ks with
    | nil => exact fun p => (List.append_nil _).symm
    | cons k ks ih =>
      intro p
      rw [List.foldl_cons, ih]
      simp [kinds, addNode]
  exact hfold empty

theorem Numbered.eq_of_kinds {p q : Patch} (hp : p.Numbered) (hq : q.Numbered)
    (hkinds : p.kinds = q.kinds) (hconnections : p.connections = q.connections) : p = q := by
  obtain ⟨ns, cs⟩ := p
  obtain ⟨ms, ds⟩ := q
  obtain rfl : cs = ds := hconnections
  have hsize : ns.size = ms.size := by
    have hlength := congrArg List.length hkinds
    simpa [kinds] using hlength
  have hnodes : ns = ms := by
    refine Array.ext hsize fun i h₁ h₂ => ?_
    have hkind : ns[i].kind = ms[i].kind := by
      have hget := congrArg (·[i]?) hkinds
      simpa [kinds, h₁, h₂] using hget
    have hid : ns[i].id = ms[i].id := (hp i h₁).trans (hq i h₂).symm
    have hnode : ∀ n m : Node, n.id = m.id → n.kind = m.kind → n = m := by
      rintro ⟨_, _⟩ ⟨_, _⟩ rfl rfl
      rfl
    exact hnode _ _ hid hkind
  rw [hnodes]

theorem ofKinds_kinds (p : Patch) : ofKinds p.kinds p.connections = p.renumbered :=
  (numbered_ofKinds _ _).eq_of_kinds p.numbered_renumbered
    ((kinds_ofKinds _ _).trans p.kinds_renumbered.symm) rfl

theorem Numbered.renumbered_eq {p : Patch} (h : p.Numbered) : p.renumbered = p :=
  p.numbered_renumbered.eq_of_kinds h p.kinds_renumbered rfl

/-- Wiring is checked by places, whatever the names of the nodes are. -/
theorem checkConnections_renumbered (p : Patch) :
    p.renumbered.checkConnections = p.checkConnections := by
  have hnode : ∀ id, p.renumbered.node? id =
      (p.node? id).map fun n => { n with id := UInt16.ofNat id.toNat } := by
    intro id
    simp only [node?, renumbered, Array.getElem?_mapIdx]
  have hone : ∀ c, p.renumbered.checkConnection c = p.checkConnection c := by
    intro c
    unfold checkConnection
    rw [hnode, hnode]
    cases p.node? c.source <;> cases p.node? c.target <;> rfl
  unfold checkConnections
  exact congrArg (List.forM p.connections) (funext hone)

end Patch

theorem PatchFile.sound_of_load {text : String} {p : Patch} (h : load text = .ok p) :
    p.Numbered ∧ p.checkConnections = .ok () := by
  simp only [load] at h
  split at h
  · cases h
  · split at h
    · cases h
    · split at h
      · rename_i hsound
        cases h
        exact ⟨Patch.numbered_ofKinds _ _, hsound⟩
      · cases h

theorem PatchFile.numbered_of_load {text : String} {p : Patch} (h : load text = .ok p) :
    p.Numbered :=
  (sound_of_load h).1

end Bytebeat
