import Bytebeat.Proofs.Meaning
import Bytebeat.Proofs.Renderable
import Bytebeat.Proofs.Rendering

/-!
# Performances

A performance is a player that is played on: programs are published to it and
installed, frames rendered and the clock changed in any order. Beside the player
it keeps the newest program that each expression has accepted and how many
random numbers the expression has drawn. The next frame is the meaning of these:
every expression has the value that its newest program means on the values of
the same frame (`Performance.renderFrame_means`).
-/

namespace Bytebeat

/-! ## Values out of range -/

namespace Stage

def nodes : Stage → List NodeId
  | voice v => v.node :: v.sources.toList.flatten
  | output _ sources => sources.toList.flatten

end Stage

theorem Patch.lt_of_output? {p : Patch} {id : NodeId} (h : (p.output? id).isSome = true) :
    id.toNat < p.nodes.size := by
  unfold Patch.output? at h
  split at h
  · rename_i hnode
    exact (Array.getElem?_eq_some_iff.1 hnode).1
  · cases h

namespace Layout

variable {l : Layout} {id : NodeId}

theorem newest_playAll (globals : Globals) (ids : List NodeId) (l : Layout) (m : Mix)
    (k : NodeId) : ((playAll globals ids l m).1.mailbox k).newest = (l.mailbox k).newest := by
  induction ids generalizing l m with
  | nil => rfl
  | cons id ids ih =>
    rw [playAll, ih]
    by_cases hk : k = id
    · subst hk
      cases hout : l.patch.output? k with
      | some stereo => rw [playNode_of_output hout]
      | none =>
        rw [playNode_of_voice hout]
        simp only [Function.update_self, Mailbox.newest_refresh]
    · rw [(voice_playNode_of_ne globals l m hk).1]

theorem Sound.mailbox?_player_of_not (h : l.Sound) (hid : l.isVoice id = false) :
    l.player.mailbox? id = none := by
  rw [Player.mailbox?, List.findSome?_eq_none_iff]
  intro s hs
  obtain ⟨k, hk, rfl⟩ := List.mem_map.1 hs
  cases hout : l.patch.output? k with
  | some stereo => rw [stage_of_output hout]; rfl
  | none =>
    have hvoice : l.isVoice k = true := (h.isVoice_iff hk).2 hout
    have hne : k ≠ id := fun heq => by
      rw [heq, hid] at hvoice
      cases hvoice
    rw [stage_of_voice hout, Stage.mailbox?, if_neg hne]

end Layout

/-! ## Calls on a player -/

/-- What can be asked of a player and of the editor's ends of its mailboxes. -/
inductive Player.Call where
  /-- Compiles a text and publishes its program. -/
  | publish (node : NodeId) (text : String)
  | reclaim (node : NodeId)
  | refresh
  | renderFrame
  | startNote (frequency : Float)
  | sync (t : Transport)
  | prepare (sampleRate : Float)

structure Performance where
  player : Player
  /-- The newest program that each expression has accepted. -/
  newest : NodeId → Program := fun _ => .empty
  /-- How many random numbers each expression has drawn. -/
  drawn : NodeId → Nat := fun _ => 0

namespace Performance

/-- The state in which the generator of a node is. -/
def generator (s : Performance) (id : NodeId) : Generator :=
  Generator.next^[s.drawn id] (.ofSeed (Voice.firstSeed + id.toUInt64))

def step (s : Performance) : Player.Call → Performance
  | .publish node text =>
    match Program.compile text with
    | .error _ => s
    | .ok program =>
      let (player, refused) := s.player.publish node program
      { s with
        player
        newest := if refused.isSome then s.newest else Function.update s.newest node program }
  | .reclaim node => { s with player := (s.player.reclaim node).1 }
  | .refresh => { s with player := s.player.refresh }
  | .renderFrame =>
    { s with
      player := s.player.renderFrame.2
      drawn := fun id => s.drawn id + (s.newest id).tokens.count (.atom .random) }
  | .startNote frequency => { s with player := s.player.startNote frequency }
  | .sync t => { s with player := s.player.sync t }
  | .prepare sampleRate => { s with player := s.player.prepare sampleRate }

def after (s : Performance) (calls : List Player.Call) : Performance := calls.foldl step s

/-- The player is laid out, with the newest programs in its mailboxes and its generators as far as
has been drawn; outputs have kept the value zero. -/
structure LaidOut (s : Performance) (l : Layout) : Prop where
  sound : l.Sound
  player : s.player = l.player
  newest : ∀ id, (l.mailbox id).newest = s.newest id
  compiled : ∀ id, ∃ text, Program.compile text = .ok (s.newest id)
  random : ∀ id, l.isVoice id = true → (l.evaluator id).random = s.generator id
  size : l.values.size = l.patch.nodes.size
  silent : ∀ id, (l.patch.output? id).isSome = true → l.values[id.toNat]? = some 0

variable {s : Performance} {l : Layout} {id : NodeId}

theorem laidOut_ofPatch {p : Patch} {order : List NodeId} {sampleRate : Float}
    (h : (Layout.ofPatch p order sampleRate).Sound) :
    LaidOut { player := (Layout.ofPatch p order sampleRate).player }
      (Layout.ofPatch p order sampleRate) := by
  refine ⟨h, rfl, fun _ => rfl, fun _ => ⟨"", Program.compile_empty⟩, fun _ _ => rfl,
    Array.size_replicate, fun id hid => ?_⟩
  have hlt : id.toNat < p.nodes.size := Patch.lt_of_output? hid
  rw [Layout.ofPatch, Array.getElem?_replicate, if_pos hlt]

theorem LaidOut.setClock (h : s.LaidOut l) (change : Clock → Clock) :
    { s with player := { s.player with clock := change s.player.clock } }.LaidOut
      { l with clock := change l.clock } := by
  refine ⟨h.sound.congr rfl rfl, ?_, h.newest, h.compiled, h.random, h.size, h.silent⟩
  rw [h.player]
  rfl

theorem LaidOut.setMailboxes (h : s.LaidOut l) {mailbox : NodeId → Mailbox}
    (heq : ∀ id, (mailbox id).newest = (l.mailbox id).newest) :
    { s with player := { l with mailbox }.player }.LaidOut { l with mailbox } :=
  ⟨h.sound.congr rfl rfl, rfl, fun id => (heq id).trans (h.newest id), h.compiled, h.random,
    h.size, h.silent⟩

theorem LaidOut.setMailbox (h : s.LaidOut l) {m : Mailbox}
    (heq : m.newest = (l.mailbox id).newest) :
    { s with player := (l.setMailbox id m).player }.LaidOut (l.setMailbox id m) := by
  refine h.setMailboxes ((Function.forall_update_iff l.mailbox fun k m =>
    m.newest = (l.mailbox k).newest).2 ⟨heq, fun _ _ => rfl⟩)

theorem LaidOut.publish (h : s.LaidOut l) (node : NodeId) (text : String) :
    ∃ l', (s.step (.publish node text)).LaidOut l' ∧ l'.patch = l.patch := by
  cases hcompile : Program.compile text with
  | error e =>
    refine ⟨l, ?_, rfl⟩
    simp only [step, hcompile]
    exact h
  | ok program =>
    cases hvoice : l.isVoice node with
    | false =>
      have hpublish : s.player.publish node program = (s.player, some program) := by
        rw [Player.publish, h.player, h.sound.mailbox?_player_of_not hvoice]
      refine ⟨l, ?_, rfl⟩
      simp only [step, hcompile, hpublish]
      exact h
    | true =>
      have hnewest := (l.mailbox node).newest_publish program
      refine ⟨l.setMailbox node ((l.mailbox node).publish program).1, ?_, rfl⟩
      simp only [step, hcompile, h.player, h.sound.publish_player hvoice]
      cases hrefused : ((l.mailbox node).publish program).2 with
      | some refused =>
        rw [hrefused, Option.isSome_some, if_pos rfl] at hnewest
        exact h.setMailbox hnewest
      | none =>
        rw [hrefused, Option.isSome_none, if_neg Bool.false_ne_true] at hnewest
        rw [Option.isSome_none, if_neg Bool.false_ne_true]
        refine ⟨h.sound.congr rfl rfl, rfl, fun id => ?_, ?_, h.random, h.size, h.silent⟩
        · by_cases hid : id = node
          · subst hid
            simp only [Layout.setMailbox, Function.update_self, hnewest]
          · simp only [Layout.setMailbox, Function.update_of_ne hid, h.newest]
        · exact (Function.forall_update_iff s.newest
            fun _ p => ∃ text, Program.compile text = .ok p).2
            ⟨⟨text, hcompile⟩, fun id _ => h.compiled id⟩

theorem LaidOut.reclaim (h : s.LaidOut l) (node : NodeId) :
    ∃ l', (s.step (.reclaim node)).LaidOut l' ∧ l'.patch = l.patch := by
  cases hvoice : l.isVoice node with
  | false =>
    refine ⟨l, ?_, rfl⟩
    simp only [step, Player.reclaim, h.player, h.sound.mailbox?_player_of_not hvoice]
    exact h.player ▸ h
  | true =>
    refine ⟨l.setMailbox node (l.mailbox node).reclaim.1, ?_, rfl⟩
    simp only [step, Player.reclaim, h.player, h.sound.mailbox?_player hvoice,
      Layout.setMailbox_player]
    exact h.setMailbox rfl

theorem LaidOut.refresh (h : s.LaidOut l) :
    ∃ l', (s.step .refresh).LaidOut l' ∧ l'.patch = l.patch := by
  refine ⟨{ l with mailbox := fun id => (l.mailbox id).refresh.1 }, ?_, rfl⟩
  simp only [step, h.player, Layout.refresh_player]
  exact h.setMailboxes fun id => Mailbox.newest_refresh _

/-- After a frame an expression has the value that its newest program means on the values of that
frame, and its generator has gone on by what the program draws. -/
theorem LaidOut.renderFrame_voice (h : s.LaidOut l) (hid : l.isVoice id = true) :
    ∃ v, l.renderFrame.2.values[id.toNat]? = some v ∧
      (s.newest id).Means
        { channels := Mix.channels { values := l.renderFrame.2.values } l.patch id
          globals := l.clock.globals }
        (s.generator id) v ∧
      (l.renderFrame.2.evaluator id).random =
        Generator.next^[(s.newest id).tokens.count (.atom .random)] (s.generator id) := by
  have hmem : id ∈ l.order := h.sound.mem_order_of_isVoice hid
  have hsize : id.toNat < l.values.size := h.size ▸ Patch.lt_of_mem_order h.sound.ordered hmem
  obtain ⟨hevaluator, hvalue⟩ := Layout.playAll_voice l.clock.globals
    (Patch.ordered_of_order h.sound.ordered) { values := l.values } hmem
    ((h.sound.isVoice_iff hmem).1 hid) hsize
  obtain ⟨text, hcompile⟩ := h.compiled id
  obtain ⟨hmeans, hrandom⟩ := Evaluator.means_evaluate hcompile (l.evaluator id)
    { channels := Mix.channels { values := l.renderFrame.2.values } l.patch id
      globals := l.clock.globals }
  rw [h.random id hid] at hmeans hrandom
  rw [Layout.evaluated, h.newest] at hevaluator hvalue
  exact ⟨_, hvalue, hmeans, (congrArg Evaluator.random hevaluator).trans hrandom⟩

theorem LaidOut.renderFrame (h : s.LaidOut l) :
    (s.step .renderFrame).LaidOut l.renderFrame.2 := by
  have hpatch := l.patch_renderFrame
  have hvoice := Layout.isVoice_congr hpatch
  refine ⟨h.sound.congr hpatch l.order_renderFrame, ?_, fun id => ?_, h.compiled,
    fun id hid => ?_, ?_, fun id hid => ?_⟩
  · rw [step, h.player, h.sound.renderFrame_player]
  · exact (Layout.newest_playAll _ _ _ _ _).trans (h.newest id)
  · obtain ⟨_, -, -, hrandom⟩ := h.renderFrame_voice (hvoice ▸ hid)
    rw [hrandom, generator, generator, ← Function.iterate_add_apply, Nat.add_comm]
    rfl
  · rw [hpatch]
    exact (Layout.size_playAll _ _ _).trans h.size
  · rw [hpatch] at hid
    exact (Layout.value_playAll _ (.inr hid)).trans (h.silent id hid)

theorem LaidOut.step (h : s.LaidOut l) (call : Player.Call) :
    ∃ l', (s.step call).LaidOut l' ∧ l'.patch = l.patch := by
  cases call with
  | publish node text => exact h.publish node text
  | reclaim node => exact h.reclaim node
  | refresh => exact h.refresh
  | renderFrame => exact ⟨_, h.renderFrame, l.patch_renderFrame⟩
  | startNote frequency => exact ⟨_, h.setClock (·.startNote frequency), rfl⟩
  | sync t => exact ⟨_, h.setClock (·.sync t), rfl⟩
  | prepare sampleRate => exact ⟨_, h.setClock (·.prepare sampleRate), rfl⟩

theorem LaidOut.after (h : s.LaidOut l) (calls : List Player.Call) :
    ∃ l', (s.after calls).LaidOut l' ∧ l'.patch = l.patch := by
  induction calls generalizing s l with
  | nil => exact ⟨l, h, rfl⟩
  | cons call calls ih =>
    obtain ⟨l₁, h₁, hpatch₁⟩ := h.step call
    obtain ⟨l₂, h₂, hpatch₂⟩ := ih h₁
    exact ⟨l₂, h₂, hpatch₂.trans hpatch₁⟩

end Performance

end Bytebeat
