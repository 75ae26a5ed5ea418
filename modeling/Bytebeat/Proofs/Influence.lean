import Bytebeat.Proofs.Agreement

/-!
# Nodes influence each other along connections only

Two runs of one player that differ in what is published to some nodes. The nodes
that these do not reach along connections make up a part of the patch that has
its sources in it, and two layouts that agree on such a part still agree on it
after the same call (`Layout.AgreesOn.call`). So the nodes of the part are the
same in both runs after every step: their values, mailboxes and evaluators, and
with them the random numbers drawn. If no output is reached, the runs render the
same frames (`Player.run_alike`).
-/

namespace Bytebeat

namespace Patch

variable {p : Patch} {nodes : Set NodeId} {id : NodeId}

/-- A node is one of `nodes`, or one of them reaches it along connections. -/
def Influences (p : Patch) (nodes : Set NodeId) (id : NodeId) : Prop :=
  ∃ node ∈ nodes, Relation.ReflTransGen p.Feeds node id

theorem not_influences_source {k : NodeId} (hk : p.Feeds k id) (hid : ¬p.Influences nodes id) :
    ¬p.Influences nodes k :=
  fun ⟨node, hnode, hreach⟩ => hid ⟨node, hnode, hreach.tail hk⟩

theorem influences_of_mem (hid : id ∈ nodes) : p.Influences nodes id := ⟨id, hid, .refl⟩

theorem Influences.mem {reached : Set NodeId} (h : p.Influences nodes id)
    (hnodes : ∀ node ∈ nodes, node ∈ reached)
    (hclosed : ∀ c ∈ p.connections, c.source ∈ reached → c.target ∈ reached) : id ∈ reached := by
  obtain ⟨node, hnode, hreach⟩ := h
  induction hreach with
  | refl => exact hnodes node hnode
  | tail _ hfeeds ih =>
    obtain ⟨c, hc, rfl, rfl⟩ := hfeeds
    exact hclosed c hc ih

end Patch

/-! ## What stands at an expression -/

def Stage.voice? (node : NodeId) : Stage → Option Voice
  | voice v => if v.node = node then some v else none
  | output _ _ => none

/-- What is played at an expression node. -/
def Player.voice? (p : Player) (node : NodeId) : Option Voice :=
  p.stages.findSome? (Stage.voice? node)

namespace Layout

variable {l l' l'' : Layout} {part : Set NodeId} {id node : NodeId}

theorem Sound.voice?_player (h : l.Sound) (id : NodeId) :
    l.player.voice? id =
      if l.isVoice id then some ⟨id, l.mailbox id, l.evaluator id, l.patch.sources 4 id⟩
      else none := by
  have hlook : Stage.voice? id ∘ l.stage = fun k =>
      if k = id then
        if l.patch.output? k = none then
          some ⟨k, l.mailbox k, l.evaluator k, l.patch.sources 4 k⟩
        else none
      else none := by
    funext k
    rw [Function.comp_apply]
    cases hk : l.patch.output? k with
    | some stereo => simp [stage_of_output hk, Stage.voice?]
    | none => simp [stage_of_voice hk, Stage.voice?]
  rw [Player.voice?, player, List.findSome?_map, hlook, findSome?_node]
  by_cases hmem : id ∈ l.order
  · rw [if_pos hmem]
    simp only [h.isVoice_iff hmem]
  · have hvoice : ¬l.isVoice id = true := fun hid => hmem (h.mem_order_of_isVoice hid)
    rw [if_neg hmem, if_neg hvoice]

/-! ## Agreeing on a part -/

/-- The nodes of a part are the same in two layouts of one patch, and the clocks are. -/
structure AgreesOn (part : Set NodeId) (l l' : Layout) : Prop where
  patch : l'.patch = l.patch
  clock : l'.clock = l.clock
  mailbox : ∀ id ∈ part, l'.mailbox id = l.mailbox id
  evaluator : ∀ id ∈ part, l.isVoice id = true → l'.evaluator id = l.evaluator id
  values : ∀ id ∈ part, l'.values[id.toNat]? = l.values[id.toNat]?

theorem AgreesOn.refl (part : Set NodeId) (l : Layout) : AgreesOn part l l :=
  ⟨rfl, rfl, fun _ _ => rfl, fun _ _ _ => rfl, fun _ _ => rfl⟩

theorem AgreesOn.symm (h : AgreesOn part l l') : AgreesOn part l' l := by
  refine ⟨h.patch.symm, h.clock.symm, fun id hid => (h.mailbox id hid).symm,
    fun id hid hvoice => (h.evaluator id hid ?_).symm, fun id hid => (h.values id hid).symm⟩
  rwa [← isVoice_congr h.patch]

theorem AgreesOn.trans (h : AgreesOn part l l') (h' : AgreesOn part l' l'') :
    AgreesOn part l l'' := by
  refine ⟨h'.patch.trans h.patch, h'.clock.trans h.clock,
    fun id hid => (h'.mailbox id hid).trans (h.mailbox id hid),
    fun id hid hvoice => (h'.evaluator id hid ?_).trans (h.evaluator id hid hvoice),
    fun id hid => (h'.values id hid).trans (h.values id hid)⟩
  rwa [isVoice_congr h.patch]

theorem AgreesOn.voice?_player (h : AgreesOn part l l') (hl : l.Sound) (hl' : l'.Sound)
    (hid : id ∈ part) : l'.player.voice? id = l.player.voice? id := by
  rw [hl.voice?_player, hl'.voice?_player, isVoice_congr h.patch, h.patch, h.mailbox id hid]
  cases hvoice : l.isVoice id with
  | true => rw [h.evaluator id hid hvoice]
  | false => rfl

theorem AgreesOn.onMailbox (h : AgreesOn part l l') (node : NodeId) (f : Mailbox → Mailbox) :
    AgreesOn part (l.setMailbox node (f (l.mailbox node)))
      (l'.setMailbox node (f (l'.mailbox node))) := by
  refine ⟨h.patch, h.clock, fun id hid => ?_, h.evaluator, h.values⟩
  by_cases hnode : id = node
  · subst hnode
    simp only [setMailbox, Function.update_self, h.mailbox id hid]
  · simp only [setMailbox, Function.update_of_ne hnode, h.mailbox id hid]

theorem agreesOn_publish (l : Layout) (hnode : node ∉ part) (text : String) :
    AgreesOn part l (l.call (.publish node text)).2 := by
  simp only [call]
  cases Program.compile text with
  | error e => exact .refl part l
  | ok program =>
    refine ⟨rfl, rfl, fun id hid => ?_, fun _ _ _ => rfl, fun _ _ => rfl⟩
    exact Function.update_of_ne (ne_of_mem_of_not_mem hid hnode) _ _

theorem frames_publish (l : Layout) (node : NodeId) (text : String) :
    (l.call (.publish node text)).1 = [] := by
  simp only [call]
  cases Program.compile text <;> rfl

theorem AgreesOn.evaluated (h : AgreesOn part l l') (hid : id ∈ part) (hvoice : l.isVoice id = true)
    (m : Mix) : l'.evaluated l'.clock.globals m id = l.evaluated l.clock.globals m id := by
  rw [Layout.evaluated, Layout.evaluated, h.evaluator id hid hvoice, h.mailbox id hid, h.patch,
    h.clock]

theorem AgreesOn.renderFrame (h : AgreesOn part l l') (hl : l.Filled) (hl' : l'.Filled)
    (hpart : ∀ k id, l.patch.Feeds k id → id ∈ part → k ∈ part) :
    AgreesOn part l.renderFrame.2 l'.renderFrame.2 := by
  have hkind : l'.isVoice = l.isVoice := isVoice_congr h.patch
  have hvalues := hl.values_renderFrame_congr hl' h.patch hpart
    (fun id hid hvoice m => congrArg Prod.fst (h.evaluated hid hvoice m))
    (fun id hid _ => h.values id hid)
  refine ⟨?_, congrArg Clock.advance h.clock, fun id hid => ?_, fun id hid hvoice => ?_, hvalues⟩
  · rw [patch_renderFrame, patch_renderFrame, h.patch]
  · rw [hl.mailbox_renderFrame, hl'.mailbox_renderFrame, hkind, h.mailbox id hid]
  · rw [isVoice_congr l.patch_renderFrame] at hvoice
    obtain ⟨hevaluator, -⟩ := hl.voice_renderFrame hvoice
    obtain ⟨hevaluator', -⟩ := hl'.voice_renderFrame (hkind ▸ hvoice)
    have hsources : l.evaluated l.clock.globals { values := l'.renderFrame.2.values } id =
        l.evaluated l.clock.globals { values := l.renderFrame.2.values } id :=
      evaluated_congr fun k hk => hvalues k (hpart k id hk hid)
    rw [hevaluator, hevaluator', h.evaluated hid hvoice, hsources]

/-! ## One call and many -/

/-- Layouts that agree on a part with its sources agree on it after the same call. The frames are
the same if the part has all outputs. -/
theorem AgreesOn.call (h : AgreesOn part l l') (hl : l.Filled) (hl' : l'.Filled)
    (hpart : ∀ k id, l.patch.Feeds k id → id ∈ part → k ∈ part) (c : Player.Call) :
    AgreesOn part (l.call c).2 (l'.call c).2 ∧
      ((∀ id, (l.patch.output? id).isSome = true → id ∈ part) →
        (l'.call c).1 = (l.call c).1) := by
  cases c with
  | publish node text =>
    rw [frames_publish, frames_publish]
    refine ⟨?_, fun _ => rfl⟩
    simp only [Layout.call]
    cases Program.compile text with
    | error e => exact h
    | ok program => exact h.onMailbox node fun m => (m.publish program).1
  | reclaim node => exact ⟨h.onMailbox node fun m => m.reclaim.1, fun _ => rfl⟩
  | refresh =>
    refine ⟨⟨h.patch, h.clock, fun id hid => ?_, h.evaluator, h.values⟩, fun _ => rfl⟩
    simp only [Layout.call, h.mailbox id hid]
  | renderFrame =>
    have hnext := h.renderFrame hl hl' hpart
    refine ⟨hnext, fun houtputs => congrArg (fun frame => [frame]) ?_⟩
    exact hl.frame_congr hl'.toSound h.patch fun id hout k hk =>
      hnext.values k (hpart k id hk (houtputs id hout))
  | startNote frequency =>
    exact ⟨⟨h.patch, congrArg (·.startNote frequency) h.clock, h.mailbox, h.evaluator, h.values⟩,
      fun _ => rfl⟩
  | sync t =>
    exact ⟨⟨h.patch, congrArg (·.sync t) h.clock, h.mailbox, h.evaluator, h.values⟩,
      fun _ => rfl⟩
  | prepare sampleRate =>
    exact ⟨⟨h.patch, congrArg (·.prepare sampleRate) h.clock, h.mailbox, h.evaluator, h.values⟩,
      fun _ => rfl⟩

end Layout

namespace Player

variable {nodes part : Set NodeId}

/-- The same call, or two publications to one of the nodes. -/
inductive Call.Alike (nodes : Set NodeId) : Call → Call → Prop where
  | same (c : Call) : Alike nodes c c
  | publish {node : NodeId} (hnode : node ∈ nodes) (text text' : String) :
    Alike nodes (.publish node text) (.publish node text')

inductive Step.Alike (nodes : Set NodeId) : Step → Step → Prop where
  | call {c c' : Call} (h : c.Alike nodes c') : Alike nodes (.call c) (.call c')
  | renderBlock (count : Nat) : Alike nodes (.renderBlock count) (.renderBlock count)

theorem Step.Alike.calls {s s' : Step} (h : s.Alike nodes s') :
    List.Forall₂ (Call.Alike nodes) s.calls s'.calls := by
  cases h with
  | call h => exact .cons h .nil
  | renderBlock count => exact List.forall₂_same.2 fun c _ => .same c

theorem alike_calls {steps steps' : List Step}
    (h : List.Forall₂ (Step.Alike nodes) steps steps') :
    List.Forall₂ (Call.Alike nodes) (steps.flatMap Step.calls) (steps'.flatMap Step.calls) := by
  induction h with
  | nil => exact .nil
  | cons h _ ih => exact List.rel_append h.calls ih

end Player

namespace Layout

variable {l l' : Layout} {nodes part : Set NodeId}

theorem AgreesOn.call_alike (h : AgreesOn part l l') (hl : l.Filled) (hl' : l'.Filled)
    (hpart : ∀ k id, l.patch.Feeds k id → id ∈ part → k ∈ part)
    (hnodes : ∀ node ∈ nodes, node ∉ part) {c c' : Player.Call} (halike : c.Alike nodes c') :
    AgreesOn part (l.call c).2 (l'.call c').2 ∧
      ((∀ id, (l.patch.output? id).isSome = true → id ∈ part) →
        (l'.call c').1 = (l.call c).1) := by
  cases halike with
  | same c => exact h.call hl hl' hpart c
  | publish hnode text text' =>
    have hout := hnodes _ hnode
    refine ⟨(agreesOn_publish l hout text).symm.trans (h.trans (agreesOn_publish l' hout text')),
      fun _ => ?_⟩
    rw [frames_publish, frames_publish]

theorem AgreesOn.perform_alike (h : AgreesOn part l l') (hl : l.Filled) (hl' : l'.Filled)
    (hpart : ∀ k id, l.patch.Feeds k id → id ∈ part → k ∈ part)
    (hnodes : ∀ node ∈ nodes, node ∉ part) {calls calls' : List Player.Call}
    (halike : List.Forall₂ (Player.Call.Alike nodes) calls calls') :
    AgreesOn part (l.perform calls).2 (l'.perform calls').2 ∧
      ((∀ id, (l.patch.output? id).isSome = true → id ∈ part) →
        (l'.perform calls').1 = (l.perform calls).1) := by
  induction halike generalizing l l' with
  | nil => exact ⟨h, fun _ => rfl⟩
  | @cons c c' calls calls' hc _ ih =>
    obtain ⟨hcall, hframes⟩ := h.call_alike hl hl' hpart hnodes hc
    obtain ⟨hrest, hlater⟩ := ih hcall (hl.call c) (hl'.call c') (l.patch_call c ▸ hpart)
    refine ⟨hrest, fun houtputs => congrArg₂ (· ++ ·) (hframes houtputs) (hlater ?_)⟩
    rwa [patch_call]

end Layout

namespace Player

/-- **Nodes influence each other along connections only.** Take two runs of a player whose steps are
the same but for what is published to `nodes`, and cut both after as many steps. Each node that
none of `nodes` reaches has the same value in both, and an expression the same programs in its
mailbox and the same evaluator with its generator. If no output is reached, all frames so far
are the same. -/
theorem run_alike {p : Patch} {sampleRate : Float} {player : Player}
    (hplayer : ofPatch p sampleRate = .ok player) {nodes : Set NodeId} {steps steps' : List Step}
    (halike : List.Forall₂ (Step.Alike nodes) steps steps') (n : Nat) :
    let run := player.run (steps.take n)
    let run' := player.run (steps'.take n)
    (∀ id, ¬p.Influences nodes id →
      run'.2.value? id = run.2.value? id ∧ run'.2.voice? id = run.2.voice? id) ∧
    ((∀ id, (p.output? id).isSome = true → ¬p.Influences nodes id) → run'.1 = run.1) := by
  obtain ⟨order, hsound, rfl⟩ := ofPatch_eq_ok_iff_sound.1 hplayer
  have hfilled := Layout.filled_ofPatch hsound
  simp only [run_eq_perform, hsound.perform_player]
  obtain ⟨hagree, hframes⟩ :=
    (Layout.AgreesOn.refl {id | ¬p.Influences nodes id} _).perform_alike hfilled hfilled
      (fun _ _ hk hid => Patch.not_influences_source hk hid)
      (fun _ hnode hnot => hnot (Patch.influences_of_mem hnode))
      (alike_calls (List.forall₂_take n halike))
  have hlast := hfilled.perform ((steps.take n).flatMap Step.calls)
  have hlast' := hfilled.perform ((steps'.take n).flatMap Step.calls)
  exact ⟨fun id hid => ⟨hagree.values id hid,
    hagree.voice?_player hlast.toSound hlast'.toSound hid⟩, hframes⟩

/-- A node that feeds another but not the one that is heard, which draws random numbers in both
runs. The node that is fed differs. -/
theorem run_alike_aside :
    let p := Patch.ofKinds [.expression "", .expression "", .expression "", .output false]
      [⟨0, 1, 0⟩, ⟨2, 3, 0⟩]
    let steps : List Step :=
      [.call (.publish 2 "rand*t"), .call (.publish 1 "a"), .call (.publish 0 "t"), .renderBlock 2,
        .call (.startNote 440), .call .renderFrame]
    let steps' : List Step :=
      [.call (.publish 2 "rand*t"), .call (.publish 1 "a"), .call (.publish 0 "rand"),
        .renderBlock 2, .call (.startNote 440), .call .renderFrame]
    List.Forall₂ (Step.Alike {0}) steps steps' ∧
      ∃ player, ofPatch p 8000 = .ok player ∧
        (player.run steps').2.value? 2 = (player.run steps).2.value? 2 ∧
        (player.run steps').2.voice? 2 = (player.run steps).2.voice? 2 ∧
        (player.run steps').1 = (player.run steps).1 ∧
        (player.run steps').2.value? 1 ≠ (player.run steps).2.value? 1 := by
  intro p steps steps'
  have hsound : (Layout.ofPatch p [0, 1, 2, 3] 8000).Sound :=
    ⟨by decide +kernel, by decide +kernel⟩
  have hplayer := ofPatch_eq_ok_iff_sound.2 ⟨_, hsound, rfl⟩
  have halike : List.Forall₂ (Step.Alike {0}) steps steps' := by
    refine .cons (.call (.same _)) (.cons (.call (.same _)) (.cons (.call ?_) ?_))
    · exact .publish (Set.mem_singleton 0) "t" "rand"
    · exact .cons (.renderBlock 2) (.cons (.call (.same _)) (.cons (.call (.same _)) .nil))
  have hreached : ∀ id, p.Influences {0} id → id ∈ ({0, 1} : Set NodeId) := fun id h =>
    h.mem (fun node hnode => .inl hnode) (by decide)
  obtain ⟨hnodes, hframes⟩ := run_alike hplayer halike 6
  obtain ⟨hvalue, hvoice⟩ := hnodes 2 fun h => absurd (hreached 2 h) (by decide)
  refine ⟨halike, _, hplayer, hvalue, hvoice, hframes fun id hout h => ?_, by decide +kernel⟩
  rcases hreached id h with rfl | rfl <;> exact absurd hout (by decide)

end Player

end Bytebeat
