import Bytebeat.Patch.File
import Bytebeat.Proofs.Layout
import Bytebeat.Proofs.Precedence

/-!
# Renderable patches

Which patches can be played, said of their nodes and connections alone
(`Patch.Renderable`). The three checks that building a player makes, of the
connections, of the order and of the sources of each channel, agree: the first
leaves nothing for the last to refuse, and the second refuses cycles and too
many nodes (`Player.ofPatch_iff_renderable`).
-/

namespace Bytebeat

namespace Patch

/-- Every connection leads from an expression into a channel that its target has, and at most 16
enter any one channel. -/
structure Wired (p : Patch) : Prop where
  source : ∀ c ∈ p.connections, (p.expression? c.source).isSome = true
  channel : ∀ c ∈ p.connections, ∃ target,
    p.node? c.target = some target ∧ c.channel.toNat < target.kind.channels
  fanIn : ∀ id channel, p.fanIn id channel ≤ 16

/-- The patch is wired without cycles, and each of its nodes has a number of its own below the
greatest of 16 bits. -/
structure Renderable (p : Patch) : Prop extends p.Wired where
  size : p.nodes.size ≤ 65535
  acyclic : p.Acyclic

variable {p : Patch}

theorem isSome_expression?_iff {id : NodeId} :
    (p.expression? id).isSome = true ↔
      ∃ node, p.node? id = some node ∧ node.kind.isOutput = false := by
  unfold expression?
  rcases p.node? id with _ | ⟨own, _ | _⟩ <;> simp [NodeKind.isOutput]

theorem fanIn_eq_zero {id : NodeId} {channel : UInt8}
    (h : ∀ c ∈ p.connections, ¬(c.target = id ∧ c.channel = channel)) :
    p.fanIn id channel = 0 := by
  refine List.countP_eq_zero.2 fun c hc heq => h c hc ?_
  rwa [Bool.and_eq_true, beq_iff_eq, beq_iff_eq] at heq

theorem checkConnections_eq_ok_iff_wired : p.checkConnections = .ok () ↔ p.Wired := by
  rw [checkConnections_eq_ok_iff]
  constructor
  · intro h
    refine ⟨fun c hc => ?_, fun c hc => ?_, fun id channel => ?_⟩
    · obtain ⟨source, _, hs, -, hout, -⟩ := checkConnection_eq_ok_iff.1 (h c hc)
      exact isSome_expression?_iff.2 ⟨source, hs, hout⟩
    · obtain ⟨_, target, -, ht, -, hchannel, -⟩ := checkConnection_eq_ok_iff.1 (h c hc)
      exact ⟨target, ht, hchannel⟩
    · by_cases hentered : ∃ c ∈ p.connections, c.target = id ∧ c.channel = channel
      · obtain ⟨c, hc, rfl, rfl⟩ := hentered
        obtain ⟨_, _, -, -, -, -, hfan⟩ := checkConnection_eq_ok_iff.1 (h c hc)
        exact hfan
      · rw [fanIn_eq_zero fun c hc heq => hentered ⟨c, hc, heq⟩]
        exact Nat.zero_le _
  · intro h c hc
    obtain ⟨source, hs, hout⟩ := isSome_expression?_iff.1 (h.source c hc)
    obtain ⟨target, ht, hchannel⟩ := h.channel c hc
    exact checkConnection_eq_ok_iff.2 ⟨source, target, hs, ht, hout, hchannel, h.fanIn _ _⟩

theorem Wired.exists_order_iff (h : p.Wired) : (∃ ids, p.order = .ok ids) ↔ p.Renderable := by
  have hclosed := closed_of_checkConnections (checkConnections_eq_ok_iff_wired.2 h)
  constructor
  · rintro ⟨ids, hids⟩
    exact ⟨h, Nat.le_of_lt_succ (size_lt_of_order hids), acyclic_of_order hclosed hids⟩
  · exact fun hr => exists_order hclosed (Nat.lt_succ_of_le hr.size) hr.acyclic

theorem wired_of_load {text : String} (h : PatchFile.load text = .ok p) : p.Wired := by
  simp only [PatchFile.load] at h
  split at h
  · cases h
  · split at h
    · cases h
    · split at h
      · rename_i hwired
        cases h
        exact checkConnections_eq_ok_iff_wired.1 hwired
      · cases h

end Patch

/-! ## The stages and their voices -/

theorem Stage.exists_ofNode {p : Patch} (h : p.Wired) {id : NodeId}
    (hid : id.toNat < p.nodes.size) : ∃ stage, Stage.ofNode p id = .ok stage := by
  have hwired := Patch.checkConnections_eq_ok_iff_wired.2 h
  obtain ⟨⟨own, kind⟩, hnode⟩ : ∃ node, p.node? id = some node :=
    ⟨_, Array.getElem?_eq_getElem hid⟩
  rw [Stage.ofNode, hnode]
  cases kind with
  | expression text =>
    exact ⟨_, by rw [Sources.ofPatch_eq hwired hnode (Nat.le_refl 4)]; rfl⟩
  | output stereo =>
    have hchannels : NodeKind.channels (.output stereo) ≤ 2 := by cases stereo <;> decide
    exact ⟨_, by rw [Sources.ofPatch_eq hwired hnode hchannels]; rfl⟩

theorem Layout.Sound.pairwise_voices {l : Layout} (h : l.Sound) : l.voices.Pairwise (· < ·) := by
  have hsorted : l.voices.Pairwise fun a b => decide (a ≤ b) = true := by
    refine List.pairwise_mergeSort (fun a b c hab hbc => ?_) (fun a b => ?_) _
    · rw [decide_eq_true_eq] at hab hbc ⊢
      exact UInt16.le_trans hab hbc
    · rw [Bool.or_eq_true, decide_eq_true_eq, decide_eq_true_eq]
      exact UInt16.le_total a b
  refine (hsorted.and h.nodup_voices).imp fun hab => ?_
  exact UInt16.lt_of_le_of_ne (of_decide_eq_true hab.1) hab.2

namespace Player

variable {p : Patch} {sampleRate : Float}

theorem ofPatch_eq_ok_iff {player : Player} :
    ofPatch p sampleRate = .ok player ↔
      p.Wired ∧ ∃ order, p.order = .ok order ∧
        (Layout.ofPatch p order sampleRate).player = player := by
  rw [Layout.player_ofPatch, ← Patch.checkConnections_eq_ok_iff_wired]
  cases hwired : p.checkConnections with
  | error e => exact ⟨nofun, fun h => nomatch h.1⟩
  | ok u =>
    cases hordered : p.order with
    | error e => exact ⟨nofun, fun ⟨_, _, h, _⟩ => nomatch h⟩
    | ok order =>
      refine ⟨fun h => ?_, fun ⟨_, _, horder, h⟩ => ?_⟩
      · cases h
        exact ⟨rfl, order, rfl, rfl⟩
      · cases horder
        exact congrArg Except.ok h

theorem ofPatch_eq_ok_iff_sound {player : Player} :
    ofPatch p sampleRate = .ok player ↔
      ∃ order, (Layout.ofPatch p order sampleRate).Sound ∧
        (Layout.ofPatch p order sampleRate).player = player := by
  rw [ofPatch_eq_ok_iff, ← Patch.checkConnections_eq_ok_iff_wired]
  constructor
  · rintro ⟨hwired, order, hordered, hplayer⟩
    exact ⟨order, ⟨hwired, hordered⟩, hplayer⟩
  · rintro ⟨order, hsound, hplayer⟩
    exact ⟨hsound.wired, order, hsound.ordered, hplayer⟩

theorem eq_cycle_of_ofPatch (h : p.Wired) {e : WiringError}
    (he : ofPatch p sampleRate = .error e) : e = .cycle := by
  rw [Layout.player_ofPatch, Patch.checkConnections_eq_ok_iff_wired.2 h] at he
  cases hordered : p.order with
  | error e' =>
    rw [hordered] at he
    cases he
    exact Patch.eq_cycle_of_order hordered
  | ok order =>
    rw [hordered] at he
    cases he

/-- **A patch can be played exactly if it is renderable.** Of a wired patch, as every patch is that
is read from a file, each stage can be laid out and only the order can be refused. The voices of a
player are the expressions, each once and in increasing order, and its stages are those of
all nodes, with the sources of each channel in the order of their connections. -/
theorem ofPatch_iff_renderable (p : Patch) (sampleRate : Float) :
    ((∃ player, ofPatch p sampleRate = .ok player) ↔ p.Renderable) ∧
      (p.Wired →
        (∀ id : NodeId, id.toNat < p.nodes.size → ∃ stage, Stage.ofNode p id = .ok stage) ∧
        ∀ e, ofPatch p sampleRate = .error e → e = .cycle) ∧
      (∀ text, PatchFile.load text = .ok p → ∀ e, ofPatch p sampleRate = .error e → e = .cycle) ∧
      ∀ player, ofPatch p sampleRate = .ok player →
        player.voices.Pairwise (· < ·) ∧
        (∀ id, id ∈ player.voices ↔ (p.expression? id).isSome = true) ∧
        ∃ order, p.order = .ok order ∧ order.Nodup ∧
          (∀ id : NodeId, id ∈ order ↔ id.toNat < p.nodes.size) ∧
          player.stages = order.map fun id =>
            match p.output? id with
            | some stereo => .output stereo (p.sources 2 id)
            | none => .voice (.ofNode id (p.sources 4 id)) := by
  refine ⟨⟨?_, fun h => ?_⟩, fun h => ⟨fun id hid => Stage.exists_ofNode h hid,
    fun e he => eq_cycle_of_ofPatch h he⟩,
    fun text hload e he => eq_cycle_of_ofPatch (Patch.wired_of_load hload) he, ?_⟩
  · rintro ⟨player, hplayer⟩
    obtain ⟨hwired, order, horder, -⟩ := ofPatch_eq_ok_iff.1 hplayer
    exact hwired.exists_order_iff.1 ⟨order, horder⟩
  · obtain ⟨order, horder⟩ := h.toWired.exists_order_iff.2 h
    exact ⟨_, ofPatch_eq_ok_iff.2 ⟨h.toWired, order, horder, rfl⟩⟩
  · intro player hplayer
    obtain ⟨hwired, order, horder, rfl⟩ := ofPatch_eq_ok_iff.1 hplayer
    have hsound : (Layout.ofPatch p order sampleRate).Sound :=
      ⟨Patch.checkConnections_eq_ok_iff_wired.2 hwired, horder⟩
    rw [hsound.voices_player]
    exact ⟨hsound.pairwise_voices, hsound.mem_voices, order, horder, hsound.nodup,
      Patch.mem_order_iff horder, rfl⟩

/-- Two expressions that feed each other are wired, and refused for the cycle alone. -/
theorem ofPatch_iff_renderable_loop :
    let p := Patch.ofKinds [.expression "a", .expression "a"] [⟨0, 1, 0⟩, ⟨1, 0, 0⟩]
    p.Wired ∧ (¬∃ player, ofPatch p 8000 = .ok player) ∧
      ∀ e, ofPatch p 8000 = .error e → e = .cycle := by
  intro p
  have hwired : p.Wired := Patch.checkConnections_eq_ok_iff_wired.1 (by decide +kernel)
  obtain ⟨hiff, herror, -, -⟩ := ofPatch_iff_renderable p 8000
  refine ⟨hwired, fun h => ?_, (herror hwired).2⟩
  have hfeeds : ∀ c ∈ p.connections, p.Feeds c.source c.target := fun c hc => ⟨c, hc, rfl, rfl⟩
  have hthere : p.Feeds 0 1 := hfeeds ⟨0, 1, 0⟩ (by decide)
  have hback : p.Feeds 1 0 := hfeeds ⟨1, 0, 0⟩ (by decide)
  exact (hiff.1 h).acyclic 0 ((Relation.TransGen.single hthere).tail hback)

end Player

end Bytebeat
