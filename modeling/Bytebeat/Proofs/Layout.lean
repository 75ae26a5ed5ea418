import Bytebeat.Proofs.Mailbox
import Bytebeat.Proofs.Order
import Bytebeat.Proofs.Sources
import Mathlib.Logic.Function.Basic

/-!
# Players, node by node

A player is a list of stages in the order of evaluation. A `Layout` names what
stands at each node instead: its mailbox and its evaluator. Every operation on a
player that is laid out is one on the layout, which changes the functions at the
nodes it reaches and nothing else, so that no later proof looks into the list of
stages.
-/

namespace Bytebeat

/-- What a player consists of, node by node. -/
structure Layout where
  patch : Patch
  order : List NodeId
  mailbox : NodeId → Mailbox
  evaluator : NodeId → Evaluator
  values : Array Float
  clock : Clock

namespace Layout

/-- The order is one of the patch, whose connections have been checked. -/
structure Sound (l : Layout) : Prop where
  wired : l.patch.checkConnections = .ok ()
  ordered : l.patch.order = .ok l.order

theorem Sound.nodup {l : Layout} (h : l.Sound) : l.order.Nodup := Patch.order_nodup h.ordered

theorem Sound.exists_node {l : Layout} (h : l.Sound) {id : NodeId} (hid : id ∈ l.order) :
    ∃ node, l.patch.node? id = some node :=
  ⟨_, Array.getElem?_eq_getElem (Patch.lt_of_mem_order h.ordered hid)⟩

theorem Sound.mem_order {l : Layout} (h : l.Sound) {id : NodeId} {node : Node}
    (hnode : l.patch.node? id = some node) : id ∈ l.order :=
  (Patch.mem_order_iff h.ordered id).2 (Array.getElem?_eq_some_iff.1 hnode).1

/-- Whether a node is an expression. -/
def isVoice (l : Layout) (id : NodeId) : Bool := (l.patch.expression? id).isSome

theorem isVoice_congr {l l' : Layout} (h : l'.patch = l.patch) : l'.isVoice = l.isVoice := by
  funext id
  rw [isVoice, h, isVoice]

/-- The stage that stands at a node. -/
def stage (l : Layout) (id : NodeId) : Stage :=
  match l.patch.output? id with
  | some stereo => .output stereo (l.patch.sources 2 id)
  | none =>
    .voice {
      node := id
      mailbox := l.mailbox id
      evaluator := l.evaluator id
      sources := l.patch.sources 4 id }

theorem stage_of_output {l : Layout} {id : NodeId} {stereo : Bool}
    (h : l.patch.output? id = some stereo) :
    l.stage id = .output stereo (l.patch.sources 2 id) := by
  rw [stage, h]

theorem stage_of_voice {l : Layout} {id : NodeId} (h : l.patch.output? id = none) :
    l.stage id = .voice ⟨id, l.mailbox id, l.evaluator id, l.patch.sources 4 id⟩ := by
  rw [stage, h]

def player (l : Layout) : Player where
  stages := l.order.map l.stage
  values := l.values
  clock := l.clock

def voices (l : Layout) : List NodeId := (l.order.filter l.isVoice).mergeSort (· ≤ ·)

theorem Sound.nodup_voices {l : Layout} (h : l.Sound) : l.voices.Nodup :=
  (List.mergeSort_perm _ _).nodup_iff.2 (h.nodup.filter _)

theorem Sound.mem_order_of_isVoice {l : Layout} (h : l.Sound) {id : NodeId}
    (hid : l.isVoice id = true) : id ∈ l.order := by
  obtain ⟨text, htext⟩ := Option.isSome_iff_exists.1 hid
  rw [Patch.expression?] at htext
  split at htext
  · rename_i hnode
    exact h.mem_order hnode
  · cases htext

theorem Sound.mem_voices {l : Layout} (h : l.Sound) (id : NodeId) :
    id ∈ l.voices ↔ l.isVoice id = true := by
  rw [voices, List.mem_mergeSort, List.mem_filter, and_iff_right_iff_imp]
  exact h.mem_order_of_isVoice

theorem Sound.isVoice_iff {l : Layout} (h : l.Sound) {id : NodeId} (hid : id ∈ l.order) :
    l.isVoice id = true ↔ l.patch.output? id = none := by
  obtain ⟨⟨own, text | stereo⟩, hnode⟩ := h.exists_node hid <;>
    simp [isVoice, Patch.expression?, Patch.output?, hnode]

theorem node?_stage {l : Layout} {id : NodeId} :
    (l.stage id).node? = if l.patch.output? id = none then some id else none := by
  cases h : l.patch.output? id with
  | some stereo => rw [stage_of_output h]; rfl
  | none => rw [stage_of_voice h]; rfl

theorem Sound.voices_player {l : Layout} (h : l.Sound) : l.player.voices = l.voices := by
  rw [Player.voices, voices, player, List.filterMap_map]
  congr 1
  rw [← List.filterMap_eq_filter]
  refine List.filterMap_congr fun id hid => ?_
  simp only [Function.comp_apply, node?_stage, ← h.isVoice_iff hid, Option.guard_apply]

theorem Sound.player_congr {l : Layout} (h : l.Sound) {mailbox : NodeId → Mailbox}
    (heq : ∀ id, l.isVoice id = true → mailbox id = l.mailbox id) :
    { l with mailbox }.player = l.player := by
  simp only [player, Player.mk.injEq, and_true]
  refine List.map_congr_left fun id hid => ?_
  cases hout : l.patch.output? id with
  | some stereo => rw [stage_of_output hout, stage_of_output (by exact hout)]
  | none =>
    rw [stage_of_voice hout, stage_of_voice (by exact hout)]
    simp only [heq id ((h.isVoice_iff hid).2 hout)]

/-! ## Building a player -/

/-- A patch laid out before any program is published. -/
def ofPatch (p : Patch) (order : List NodeId) (sampleRate : Float) : Layout where
  patch := p
  order
  mailbox _ := .ofCapacity Mailbox.defaultCapacity
  evaluator id := .ofGenerator (.ofSeed (Voice.firstSeed + id.toUInt64))
  values := .replicate p.nodes.size 0
  clock := .ofSampleRate sampleRate

theorem capacity_ofPatch (p : Patch) (order : List NodeId) (sampleRate : Float) (id : NodeId) :
    0 < ((ofPatch p order sampleRate).mailbox id).capacity :=
  Nat.lt_of_lt_of_le Nat.one_pos (Nat.le_max_right _ _)

theorem ofNode_eq {p : Patch} {order : List NodeId} {sampleRate : Float}
    (h : (ofPatch p order sampleRate).Sound) {id : NodeId} (hid : id ∈ order) :
    Stage.ofNode p id = .ok ((ofPatch p order sampleRate).stage id) := by
  have hwired : p.checkConnections = .ok () := h.wired
  obtain ⟨⟨own, text | stereo⟩, hnode⟩ : ∃ node, p.node? id = some node := h.exists_node hid
  · have hout : p.output? id = none := by rw [Patch.output?, hnode]
    rw [stage_of_voice (l := ofPatch p order sampleRate) hout]
    simp only [Stage.ofNode, hnode, Sources.ofPatch_eq hwired hnode (Nat.le_refl 4)]
    rfl
  · have hout : p.output? id = some stereo := by rw [Patch.output?, hnode]
    have hchannels : NodeKind.channels (.output stereo) ≤ 2 := by cases stereo <;> decide
    rw [stage_of_output (l := ofPatch p order sampleRate) hout]
    simp only [Stage.ofNode, hnode, Sources.ofPatch_eq hwired hnode hchannels]
    rfl

theorem mapM_eq_ok {α β ε : Type} {f : α → Except ε β} {g : α → β} {as : List α}
    (h : ∀ a ∈ as, f a = .ok (g a)) : as.mapM f = .ok (as.map g) := by
  induction as with
  | nil => rfl
  | cons a as ih =>
    rw [List.mapM_cons, h a List.mem_cons_self, ih fun a ha => h a (List.mem_cons_of_mem _ ha)]
    rfl

/-- Building a player checks the connections and finds an order; nothing else can fail. -/
theorem player_ofPatch (p : Patch) (sampleRate : Float) :
    Player.ofPatch p sampleRate =
      (do
        p.checkConnections
        let order ← p.order
        return (ofPatch p order sampleRate).player) := by
  unfold Player.ofPatch
  cases hwired : p.checkConnections with
  | error e => rfl
  | ok u =>
    cases hordered : p.order with
    | error e => rfl
    | ok order =>
      have hsound : (ofPatch p order sampleRate).Sound := ⟨hwired, hordered⟩
      have hstages : order.mapM (Stage.ofNode p) =
          .ok (order.map (ofPatch p order sampleRate).stage) :=
        mapM_eq_ok fun id hid => ofNode_eq hsound hid
      simp only [bind, Except.bind, hstages]
      rfl

/-! ## Mailboxes -/

theorem room_update {mailbox : NodeId → Mailbox} (h : ∀ id, 0 < (mailbox id).capacity)
    {id : NodeId} {m : Mailbox} (hm : m.capacity = (mailbox id).capacity) (k : NodeId) :
    0 < (Function.update mailbox id m k).capacity :=
  (Function.forall_update_iff mailbox fun _ m => 0 < m.capacity).2
    ⟨hm ▸ h id, fun k _ => h k⟩ k

def setMailbox (l : Layout) (id : NodeId) (m : Mailbox) : Layout :=
  { l with mailbox := Function.update l.mailbox id m }

theorem setMailbox_player (l : Layout) (id : NodeId) (m : Mailbox) :
    l.player.setMailbox id m = (l.setMailbox id m).player := by
  simp only [Player.setMailbox, player, List.map_map, setMailbox, Player.mk.injEq, and_true]
  refine List.map_congr_left fun k _ => ?_
  rw [Function.comp_apply, node?_stage]
  cases h : l.patch.output? k with
  | some stereo => rw [stage_of_output h, stage_of_output (by exact h)]; rfl
  | none =>
    rw [stage_of_voice h, stage_of_voice (by exact h)]
    by_cases hk : k = id <;> simp [hk, Stage.onMailbox]

theorem findSome?_node {α : Type} (g : NodeId → Option α) (id : NodeId) (ids : List NodeId) :
    (ids.findSome? fun k => if k = id then g k else none) = if id ∈ ids then g id else none := by
  induction ids with
  | nil => rfl
  | cons k ks ih =>
    rw [List.findSome?_cons, ih]
    by_cases hk : k = id
    · subst hk
      cases g k <;> simp
    · simp [hk, Ne.symm hk]

theorem Sound.mailbox?_player {l : Layout} (h : l.Sound) {id : NodeId} (hid : l.isVoice id = true) :
    l.player.mailbox? id = some (l.mailbox id) := by
  have hmem : id ∈ l.order := h.mem_order_of_isVoice hid
  have hout : l.patch.output? id = none := (h.isVoice_iff hmem).1 hid
  have hlook : Stage.mailbox? id ∘ l.stage = fun k =>
      if k = id then if l.patch.output? k = none then some (l.mailbox k) else none else none := by
    funext k
    rw [Function.comp_apply]
    cases hk : l.patch.output? k with
    | some stereo => simp [stage_of_output hk, Stage.mailbox?]
    | none => simp [stage_of_voice hk, Stage.mailbox?]
  rw [Player.mailbox?, player, List.findSome?_map, hlook, findSome?_node, if_pos hmem, if_pos hout]

theorem Sound.publish_player {l : Layout} (h : l.Sound) {id : NodeId} (hid : l.isVoice id = true)
    (p : Program) :
    l.player.publish id p =
      ((l.setMailbox id ((l.mailbox id).publish p).1).player, ((l.mailbox id).publish p).2) := by
  rw [Player.publish, h.mailbox?_player hid]
  simp only [setMailbox_player]

theorem refresh_player (l : Layout) :
    l.player.refresh = { l with mailbox := fun id => (l.mailbox id).refresh.1 }.player := by
  simp only [Player.refresh, player, List.map_map, Player.mk.injEq, and_true]
  refine List.map_congr_left fun k _ => ?_
  rw [Function.comp_apply]
  cases h : l.patch.output? k with
  | some stereo => rw [stage_of_output h, stage_of_output (by exact h)]; rfl
  | none => rw [stage_of_voice h, stage_of_voice (by exact h)]; rfl

end Layout

end Bytebeat
