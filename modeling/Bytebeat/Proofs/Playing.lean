import Bytebeat.Proofs.Layout

/-!
# Frames, node by node

A frame of a player that is laid out is one pass over the nodes in their order
(`Layout.renderFrame_player`). Playing a node changes what stands at that node
and the mix, and leaves the other nodes as they are.
-/

namespace Bytebeat

namespace Mix

def channels (m : Mix) (p : Patch) (id : NodeId) : Vector Float 4 :=
  .ofFn fun c => m.sum (p.feeding id c)

/-- What is heard with an output. Both sides of a mono output hear the same channel. -/
def hearOutput (m : Mix) (p : Patch) (id : NodeId) (stereo : Bool) : Mix :=
  { m with
    left := m.hear m.left (p.feeding id 0)
    right := m.hear m.right (p.feeding id (if stereo then 1 else 0)) }

def put (m : Mix) (id : NodeId) (v : Float) : Mix :=
  { m with values := m.values.setIfInBounds id.toNat v }

end Mix

namespace Layout

/-- Plays a node: an output is heard, a voice installs its newest program and evaluates it. -/
def playNode (globals : Globals) (l : Layout) (m : Mix) (id : NodeId) : Layout × Mix :=
  match l.patch.output? id with
  | some stereo => (l, m.hearOutput l.patch id stereo)
  | none =>
    let result := (l.evaluator id).evaluate (l.mailbox id).newest
      { channels := m.channels l.patch id, globals }
    ({ l with
        mailbox := Function.update l.mailbox id (l.mailbox id).refresh.1
        evaluator := Function.update l.evaluator id result.2 },
      m.put id result.1)

def playAll (globals : Globals) : List NodeId → Layout → Mix → Layout × Mix
  | [], l, m => (l, m)
  | id :: ids, l, m => playAll globals ids (l.playNode globals m id).1 (l.playNode globals m id).2

variable {globals : Globals}

theorem patch_playNode (l : Layout) (m : Mix) (id : NodeId) :
    (l.playNode globals m id).1.patch = l.patch := by
  rw [playNode]
  split <;> rfl

theorem order_playNode (l : Layout) (m : Mix) (id : NodeId) :
    (l.playNode globals m id).1.order = l.order := by
  rw [playNode]
  split <;> rfl

theorem stage_playNode_of_ne (l : Layout) (m : Mix) {id k : NodeId} (hk : k ≠ id) :
    (l.playNode globals m id).1.stage k = l.stage k := by
  rw [playNode]
  split
  · rfl
  · simp [stage, hk]

theorem play_stage (l : Layout) (m : Mix) (id : NodeId) :
    (l.stage id).play globals m =
      ((l.playNode globals m id).1.stage id, (l.playNode globals m id).2) := by
  cases h : l.patch.output? id with
  | some stereo =>
    have hnode : l.playNode globals m id = (l, m.hearOutput l.patch id stereo) := by
      rw [playNode, h]
    rw [hnode, stage_of_output h]
    cases stereo <;> simp [Stage.play, Mix.hearOutput, Patch.sources]
  | none =>
    rw [stage_of_voice (l := (l.playNode globals m id).1) (by rw [patch_playNode, h]),
      patch_playNode, stage_of_voice h]
    simp only [playNode, h, Stage.play, Voice.play, Voice.refresh, Function.update_self,
      Mailbox.current_refresh, Patch.sources, Vector.map_ofFn, Mix.channels, Mix.put]
    rfl

/-! ## A pass over the nodes -/

theorem patch_playAll (ids : List NodeId) (l : Layout) (m : Mix) :
    (playAll globals ids l m).1.patch = l.patch := by
  induction ids generalizing l m with
  | nil => rfl
  | cons id ids ih => rw [playAll, ih, patch_playNode]

theorem order_playAll (ids : List NodeId) (l : Layout) (m : Mix) :
    (playAll globals ids l m).1.order = l.order := by
  induction ids generalizing l m with
  | nil => rfl
  | cons id ids ih => rw [playAll, ih, order_playNode]

theorem stage_playAll_of_not_mem {ids : List NodeId} {k : NodeId} (hk : k ∉ ids) (l : Layout)
    (m : Mix) : (playAll globals ids l m).1.stage k = l.stage k := by
  induction ids generalizing l m with
  | nil => rfl
  | cons id ids ih =>
    obtain ⟨hne, hmem⟩ := not_or.1 fun h => hk (List.mem_cons.2 h)
    rw [playAll, ih hmem, stage_playNode_of_ne l m hne]

/-- Each node is played as it stood before the pass, since it is played once. -/
theorem playAll_map_stage {ids : List NodeId} (hnodup : ids.Nodup) (l : Layout) (m : Mix) :
    Stage.playAll globals (ids.map l.stage) m =
      (ids.map (playAll globals ids l m).1.stage, (playAll globals ids l m).2) := by
  induction ids generalizing l m with
  | nil => rfl
  | cons id ids ih =>
    obtain ⟨hid, hnodup⟩ := List.nodup_cons.1 hnodup
    have hrest : ids.map l.stage = ids.map (l.playNode globals m id).1.stage :=
      List.map_congr_left fun k hk =>
        (stage_playNode_of_ne l m (ne_of_mem_of_not_mem hk hid)).symm
    rw [List.map_cons, Stage.playAll, play_stage, hrest]
    simp only [ih hnodup, List.map_cons, playAll, stage_playAll_of_not_mem hid]

def renderFrame (l : Layout) : Frame × Layout :=
  let played := playAll l.clock.globals l.order l { values := l.values }
  (.ofUnit played.2.left played.2.right,
    { played.1 with values := played.2.values, clock := l.clock.advance })

theorem patch_renderFrame (l : Layout) : l.renderFrame.2.patch = l.patch :=
  patch_playAll _ _ _

theorem order_renderFrame (l : Layout) : l.renderFrame.2.order = l.order :=
  order_playAll _ _ _

theorem Sound.congr {l l' : Layout} (h : l.Sound) (hpatch : l'.patch = l.patch)
    (horder : l'.order = l.order) : l'.Sound :=
  ⟨hpatch ▸ h.wired, by rw [hpatch, horder]; exact h.ordered⟩

theorem Sound.renderFrame_player {l : Layout} (h : l.Sound) :
    l.player.renderFrame = (l.renderFrame.1, l.renderFrame.2.player) := by
  simp only [Player.renderFrame, player, playAll_map_stage h.nodup, Layout.renderFrame,
    order_playAll]
  rfl

def renderFrames (l : Layout) : Nat → List Frame × Layout
  | 0 => ([], l)
  | count + 1 =>
    let (frame, l) := l.renderFrame
    let (frames, l) := l.renderFrames count
    (frame :: frames, l)

theorem Sound.renderAfter_player {l : Layout} (h : l.Sound) (done : Array Frame) (count : Nat) :
    l.player.renderAfter done count =
      (done ++ (l.renderFrames count).1.toArray, (l.renderFrames count).2.player) := by
  induction count generalizing l done with
  | zero => simp [Player.renderAfter, renderFrames]
  | succ count ih =>
    have h' : l.renderFrame.2.Sound := h.congr l.patch_renderFrame l.order_renderFrame
    simp [Player.renderAfter, h.renderFrame_player, ih h', renderFrames]

theorem Sound.renderFrames_player {l : Layout} (h : l.Sound) (count : Nat) :
    l.player.renderFrames count =
      ((l.renderFrames count).1.toArray, (l.renderFrames count).2.player) := by
  rw [Player.renderFrames, h.renderAfter_player, Array.empty_append]

end Layout

end Bytebeat
