import Bytebeat.Proofs.Playing
import Bytebeat.Proofs.Precedence

/-!
# What a pass computes

A pass over the nodes in an order of evaluation leaves each expression with its
program's value on what its sources have after that same pass
(`Layout.playAll_voice`), and adds up what is heard of these values
(`Layout.heard_playAll`). When a node is played its sources
have been played, and neither they nor the node itself are played again
(`Patch.Ordered`), so that what it reads then is what stands there at the end.
-/

namespace Bytebeat

namespace Patch

/-- No node of the list comes again, nor does any of its sources come with it or after it. -/
def Ordered (p : Patch) : List NodeId → Prop
  | [] => True
  | id :: later => id ∉ later ∧ (∀ k, p.Feeds k id → k ∉ id :: later) ∧ p.Ordered later

theorem ordered_of_order {p : Patch} {ids : List NodeId} (h : p.order = .ok ids) :
    p.Ordered ids := by
  have hself : ∀ id ∈ ids, ¬p.Feeds id id := fun id hid => not_feeds_self h hid
  have hnodup := order_nodup h
  have hpairwise := order_pairwise h
  clear h
  induction ids with
  | nil => trivial
  | cons id later ih =>
    obtain ⟨hid, hnodup⟩ := List.nodup_cons.1 hnodup
    obtain ⟨hlater, hpairwise⟩ := List.pairwise_cons.1 hpairwise
    refine ⟨hid, fun k hk hmem => ?_,
      ih (fun k hk => hself k (List.mem_cons_of_mem _ hk)) hnodup hpairwise⟩
    rcases List.mem_cons.1 hmem with rfl | hmem
    · exact hself k List.mem_cons_self hk
    · exact hlater k hmem hk

theorem feeds_of_mem_feeding {p : Patch} {id k : NodeId} {channel : Nat}
    (h : k ∈ p.feeding id channel) : p.Feeds k id := by
  obtain ⟨c, hc, rfl⟩ := List.mem_map.1 h
  obtain ⟨hc, hinto⟩ := List.mem_filter.1 hc
  exact ⟨c, hc, rfl, beq_iff_eq.1 (Bool.and_eq_true_iff.1 hinto).1⟩

/-- What is heard of the outputs among some nodes on one side: for each output whose channel for
that side is connected the sum of the channel, mapped to the range of samples. -/
def heard (p : Patch) (m : Mix) (channel : Bool → Nat) (ids : List NodeId) : List Float :=
  ids.filterMap fun id => (p.output? id).bind fun stereo =>
    let nodes := p.feeding id (channel stereo)
    if nodes.isEmpty then none else some (byteToUnit (m.sum nodes))

/-- Both sides of a mono output hear its one channel. -/
def leftChannel (_ : Bool) : Nat := 0

def rightChannel (stereo : Bool) : Nat := if stereo then 1 else 0

theorem heard_cons (p : Patch) (m : Mix) (channel : Bool → Nat) (id : NodeId)
    (ids : List NodeId) : p.heard m channel (id :: ids) =
      p.heard m channel [id] ++ p.heard m channel ids :=
  List.filterMap_append (l := [id])

end Patch

namespace Mix

variable {p : Patch} {m m' : Mix} {id : NodeId}

theorem sum_congr {nodes : List NodeId}
    (h : ∀ k ∈ nodes, m'.values[k.toNat]? = m.values[k.toNat]?) : m'.sum nodes = m.sum nodes := by
  refine List.foldl_ext _ _ _ fun total k hk => ?_
  rw [value, value, Array.getD_eq_getD_getElem?, Array.getD_eq_getD_getElem?, h k hk]

theorem sum_feeding_congr
    (h : ∀ k, p.Feeds k id → m'.values[k.toNat]? = m.values[k.toNat]?) (channel : Nat) :
    m'.sum (p.feeding id channel) = m.sum (p.feeding id channel) :=
  sum_congr fun k hk => h k (Patch.feeds_of_mem_feeding hk)

theorem channels_congr (h : ∀ k, p.Feeds k id → m'.values[k.toNat]? = m.values[k.toNat]?) :
    m'.channels p id = m.channels p id := by
  simp only [channels, sum_feeding_congr h]

theorem hear_eq_foldl (h : ∀ k, p.Feeds k id → m'.values[k.toNat]? = m.values[k.toNat]?)
    {stereo : Bool} (hout : p.output? id = some stereo) (channel : Bool → Nat) (side : Float) :
    m.hear side (p.feeding id (channel stereo)) =
      (p.heard m' channel [id]).foldl (· + ·) side := by
  rw [hear, Patch.heard, List.filterMap_cons, hout, Option.bind_some]
  by_cases hempty : (p.feeding id (channel stereo)).isEmpty = true
  · rw [if_pos hempty, if_pos hempty]
    rfl
  · rw [if_neg hempty, if_neg hempty, sum_feeding_congr h]
    rfl

end Mix

namespace Layout

def evaluated (globals : Globals) (l : Layout) (m : Mix) (id : NodeId) : Float × Evaluator :=
  (l.evaluator id).evaluate (l.mailbox id).newest { channels := m.channels l.patch id, globals }

variable {globals : Globals} {ids : List NodeId} {id k : NodeId}

theorem playNode_of_output {l : Layout} {stereo : Bool} (h : l.patch.output? id = some stereo)
    (m : Mix) : l.playNode globals m id = (l, m.hearOutput l.patch id stereo) := by
  rw [playNode, h]

theorem playNode_of_voice {l : Layout} (h : l.patch.output? id = none) (m : Mix) :
    l.playNode globals m id =
      ({ l with
          mailbox := Function.update l.mailbox id (l.mailbox id).refresh.1
          evaluator := Function.update l.evaluator id (l.evaluated globals m id).2 },
        m.put id (l.evaluated globals m id).1) := by
  rw [playNode, h]
  rfl

/-! ## What a pass leaves alone -/

theorem size_playNode (l : Layout) (m : Mix) (id : NodeId) :
    (l.playNode globals m id).2.values.size = m.values.size := by
  cases h : l.patch.output? id with
  | some stereo => rw [playNode_of_output h, Mix.hearOutput]
  | none => rw [playNode_of_voice h, Mix.put, Array.size_setIfInBounds]

theorem size_playAll (ids : List NodeId) (l : Layout) (m : Mix) :
    (playAll globals ids l m).2.values.size = m.values.size := by
  induction ids generalizing l m with
  | nil => rfl
  | cons id ids ih => rw [playAll, ih, size_playNode]

theorem value_playNode {l : Layout} (m : Mix)
    (hk : k ≠ id ∨ (l.patch.output? id).isSome = true) :
    (l.playNode globals m id).2.values[k.toNat]? = m.values[k.toNat]? := by
  cases h : l.patch.output? id with
  | some stereo => rw [playNode_of_output h, Mix.hearOutput]
  | none =>
    have hne : id.toNat ≠ k.toNat := by
      rcases hk with hne | hout
      · exact fun heq => hne (UInt16.toNat_inj.1 heq.symm)
      · rw [h] at hout
        cases hout
    rw [playNode_of_voice h, Mix.put, Array.getElem?_setIfInBounds_ne hne]

theorem value_playAll {l : Layout} (m : Mix)
    (hk : k ∉ ids ∨ (l.patch.output? k).isSome = true) :
    (playAll globals ids l m).2.values[k.toNat]? = m.values[k.toNat]? := by
  induction ids generalizing l m with
  | nil => rfl
  | cons id ids ih =>
    rw [playAll, ih, value_playNode]
    · by_cases heq : k = id
      · subst heq
        exact .inr (hk.resolve_left fun hmem => hmem List.mem_cons_self)
      · exact .inl heq
    · rw [patch_playNode]
      exact hk.imp_left fun hmem h => hmem (List.mem_cons_of_mem _ h)

theorem voice_playNode_of_ne (globals : Globals) (l : Layout) (m : Mix) (hk : k ≠ id) :
    (l.playNode globals m id).1.mailbox k = l.mailbox k ∧
      (l.playNode globals m id).1.evaluator k = l.evaluator k := by
  cases h : l.patch.output? id with
  | some stereo => rw [playNode_of_output h]; exact ⟨rfl, rfl⟩
  | none =>
    rw [playNode_of_voice h]
    exact ⟨Function.update_of_ne hk _ _, Function.update_of_ne hk _ _⟩

theorem voice_playAll_of_not_mem (hk : k ∉ ids) (l : Layout) (m : Mix) :
    (playAll globals ids l m).1.mailbox k = l.mailbox k ∧
      (playAll globals ids l m).1.evaluator k = l.evaluator k := by
  induction ids generalizing l m with
  | nil => exact ⟨rfl, rfl⟩
  | cons id ids ih =>
    obtain ⟨hne, hmem⟩ := not_or.1 fun h => hk (List.mem_cons.2 h)
    obtain ⟨hmailbox, hevaluator⟩ := ih hmem (l.playNode globals m id).1 (l.playNode globals m id).2
    obtain ⟨hmailbox', hevaluator'⟩ := voice_playNode_of_ne globals l m hne
    exact ⟨hmailbox.trans hmailbox', hevaluator.trans hevaluator'⟩

/-- Where each node is played once, the mailbox of each voice is refreshed once. -/
theorem mailbox_playAll (globals : Globals) (hnodup : ids.Nodup) (l : Layout) (m : Mix)
    (k : NodeId) :
    (playAll globals ids l m).1.mailbox k =
      if k ∈ ids ∧ l.patch.output? k = none then (l.mailbox k).refresh.1 else l.mailbox k := by
  induction ids generalizing l m with
  | nil => simp [playAll]
  | cons id ids ih =>
    obtain ⟨hid, hnodup⟩ := List.nodup_cons.1 hnodup
    by_cases hk : k = id
    · subst hk
      rw [playAll, (voice_playAll_of_not_mem hid _ _).1]
      cases hout : l.patch.output? k with
      | some stereo => simp [playNode_of_output hout]
      | none => simp [playNode_of_voice hout]
    · rw [playAll, ih hnodup, patch_playNode, (voice_playNode_of_ne globals l m hk).1]
      simp [hk]

theorem Sound.mailbox_renderFrame {l : Layout} (h : l.Sound) (id : NodeId) :
    l.renderFrame.2.mailbox id =
      if l.isVoice id then (l.mailbox id).refresh.1 else l.mailbox id := by
  have hiff : (id ∈ l.order ∧ l.patch.output? id = none) ↔ l.isVoice id = true :=
    ⟨fun ⟨hmem, hout⟩ => (h.isVoice_iff hmem).2 hout, fun hid =>
      have hmem := h.mem_order_of_isVoice hid
      ⟨hmem, (h.isVoice_iff hmem).1 hid⟩⟩
  rw [renderFrame, mailbox_playAll _ h.nodup]
  simp only [hiff]

/-! ## What a pass computes -/

variable {l : Layout}

theorem source_playAll (globals : Globals) (h : l.patch.Ordered (id :: ids)) (m : Mix)
    (hk : l.patch.Feeds k id) :
    (playAll globals (id :: ids) l m).2.values[k.toNat]? = m.values[k.toNat]? :=
  value_playAll m (.inl (h.2.1 k hk))

theorem evaluated_congr {m m' : Mix}
    (h : ∀ k, l.patch.Feeds k id → m'.values[k.toNat]? = m.values[k.toNat]?) :
    l.evaluated globals m' id = l.evaluated globals m id := by
  rw [evaluated, evaluated, Mix.channels_congr h]

/-- Playing another node before does not matter to a value but through the mix. -/
theorem evaluated_playNode (m m' : Mix) (hk : k ≠ id) :
    (l.playNode globals m id).1.evaluated globals m' k = l.evaluated globals m' k := by
  obtain ⟨hmailbox, hevaluator⟩ := voice_playNode_of_ne globals l m hk
  rw [evaluated, evaluated, hmailbox, hevaluator, patch_playNode]

/-- After a pass in order the value and the evaluator of each expression are those of its newest
program on the values after the pass. -/
theorem playAll_voice (globals : Globals) (h : l.patch.Ordered ids) (m : Mix) (hk : k ∈ ids)
    (hvoice : l.patch.output? k = none) (hsize : k.toNat < m.values.size) :
    (playAll globals ids l m).1.evaluator k =
        (l.evaluated globals (playAll globals ids l m).2 k).2 ∧
      (playAll globals ids l m).2.values[k.toNat]? =
        some (l.evaluated globals (playAll globals ids l m).2 k).1 := by
  induction ids generalizing l m with
  | nil => exact absurd hk List.not_mem_nil
  | cons id ids ih =>
    by_cases heq : k = id
    · subst heq
      -- The node is played now, on sources that are not played any more.
      obtain ⟨-, hevaluator⟩ :=
        voice_playAll_of_not_mem h.1 (l.playNode globals m k).1 (l.playNode globals m k).2
      rw [evaluated_congr fun j hj => source_playAll globals h m hj]
      refine ⟨hevaluator.trans ?_, ?_⟩
      · rw [playNode_of_voice hvoice]
        exact Function.update_self _ _ _
      · rw [playAll, value_playAll _ (.inl h.1), playNode_of_voice hvoice, Mix.put,
          Array.getElem?_setIfInBounds_self_of_lt hsize]
    · have hpatch : (l.playNode globals m id).1.patch = l.patch := patch_playNode l m id
      have hrest := ih (l := (l.playNode globals m id).1) (hpatch ▸ h.2.2)
        (l.playNode globals m id).2 ((List.mem_cons.1 hk).resolve_left heq) (hpatch ▸ hvoice)
        (by rw [size_playNode]; exact hsize)
      rwa [evaluated_playNode _ _ heq] at hrest

theorem heard_playNode (globals : Globals) {m m' : Mix}
    (h : ∀ k, l.patch.Feeds k id → m'.values[k.toNat]? = m.values[k.toNat]?) :
    (l.playNode globals m id).2.left =
        (l.patch.heard m' Patch.leftChannel [id]).foldl (· + ·) m.left ∧
      (l.playNode globals m id).2.right =
        (l.patch.heard m' Patch.rightChannel [id]).foldl (· + ·) m.right := by
  cases hout : l.patch.output? id with
  | some stereo =>
    rw [playNode_of_output hout]
    exact ⟨Mix.hear_eq_foldl h hout Patch.leftChannel m.left,
      Mix.hear_eq_foldl h hout Patch.rightChannel m.right⟩
  | none =>
    have hnone : ∀ channel, l.patch.heard m' channel [id] = [] := fun channel => by
      rw [Patch.heard, List.filterMap_cons, hout]
      rfl
    rw [playNode_of_voice hout, hnone, hnone]
    exact ⟨rfl, rfl⟩

theorem heard_playAll (globals : Globals) (h : l.patch.Ordered ids) (m : Mix) :
    (playAll globals ids l m).2.left =
        (l.patch.heard (playAll globals ids l m).2 Patch.leftChannel ids).foldl (· + ·) m.left ∧
      (playAll globals ids l m).2.right =
        (l.patch.heard (playAll globals ids l m).2 Patch.rightChannel ids).foldl (· + ·)
          m.right := by
  induction ids generalizing l m with
  | nil => exact ⟨rfl, rfl⟩
  | cons id ids ih =>
    have hpatch : (l.playNode globals m id).1.patch = l.patch := patch_playNode l m id
    obtain ⟨hleft, hright⟩ := heard_playNode globals fun k hk => source_playAll globals h m hk
    obtain ⟨hleft', hright'⟩ := ih (l := (l.playNode globals m id).1) (hpatch ▸ h.2.2)
      (l.playNode globals m id).2
    rw [hpatch] at hleft' hright'
    rw [Patch.heard_cons _ _ Patch.leftChannel id ids,
      Patch.heard_cons _ _ Patch.rightChannel id ids, List.foldl_append, List.foldl_append,
      ← hleft, ← hright]
    exact ⟨hleft', hright'⟩

end Layout

end Bytebeat
