import Bytebeat.Proofs.Runs
import Bytebeat.Proofs.Sums

/-!
# What is not finite stays inside an expression

Whatever a clock makes of its counters, the values of nodes are finite: an
expression settles its value, and the sums that it reads of such values are
numbers, if infinite ones. The outputs add bytes, of which any number that a
patch has room for is added exactly (`Stage.Heard`). Each call on a player keeps
this (`Player.Settled.call`), and so it holds in every run
(`Player.values_stay_finite`).
-/

namespace Bytebeat

open Double (level)

/-! ## Values and the sums of them -/

theorem Evaluator.isFinite_evaluate (e : Evaluator) (p : Program) (inputs : Inputs) :
    (e.evaluate p inputs).1.isFinite = true := by
  have hzero : (0 : Float).isFinite = true := rfl
  have hsettle : ∀ v, (settle v).isFinite = true := by
    intro v
    rw [settle]
    split
    · assumption
    · exact hzero
  rw [evaluate]
  split
  · exact hzero
  · split
    · exact hsettle _
    · exact hzero

namespace Mix

def Finite (m : Mix) : Prop := ∀ v ∈ m.values, v.isFinite = true

variable {m : Mix}

theorem Finite.value (h : m.Finite) (node : NodeId) : (m.value node).isFinite = true := by
  rw [Mix.value, Array.getD_eq_getD_getElem?]
  cases hv : m.values[node.toNat]? with
  | none => rfl
  | some v => exact h v (Array.mem_of_getElem? hv)

theorem Finite.isNaN_sum (h : m.Finite) (nodes : List NodeId) : (m.sum nodes).isNaN = false := by
  have hfold : ∀ total : Float, total.isNaN = false →
      (nodes.foldl (fun total node => total + m.value node) total).isNaN = false := by
    induction nodes with
    | nil => exact fun _ htotal => htotal
    | cons node nodes ih => exact fun _ htotal => ih _ (Double.isNaN_add htotal (h.value node))
  exact hfold _ rfl

theorem Finite.put (h : m.Finite) (id : NodeId) {v : Float} (hv : v.isFinite = true) :
    (m.put id v).Finite := by
  intro w hw
  rcases Array.mem_or_eq_of_mem_setIfInBounds hw with hw | rfl
  · exact h w hw
  · exact hv

end Mix

/-! ## A pass over the stages -/

/-- A double that is `k / 128`, with `k` of a size that `n` bytes can add up to. -/
def IsByteSum (n : Nat) (x : Float) : Prop := ∃ k : Int, k.natAbs ≤ 128 * n ∧ x = level k

theorem isByteSum_zero : IsByteSum 0 0 := ⟨0, Nat.le_refl 0, by decide +kernel⟩

theorem IsByteSum.isFinite {n : Nat} {x : Float} (h : IsByteSum n x) (hn : n ≤ UInt16.size) :
    x.isFinite = true := by
  obtain ⟨k, hk, rfl⟩ := h
  have hsize : n ≤ 2 ^ 16 := hn
  exact Double.isFinite_level (by omega)

theorem IsByteSum.sample_bounds {n : Nat} {x : Float} (h : IsByteSum n x) (hn : n ≤ UInt16.size) :
    -fullScale ≤ (sampleOfUnit x).toInt ∧ (sampleOfUnit x).toInt ≤ fullScale := by
  obtain ⟨k, hk, rfl⟩ := h
  have hsize : n ≤ 2 ^ 16 := hn
  obtain ⟨hlow, hhigh⟩ := Double.sampleOfLevel_bounds k
  rw [Double.sampleOfUnit_level (by omega), Int16.toInt_ofInt_of_le]
  · exact ⟨hlow, hhigh⟩
  · exact Int.le_trans (by decide) hlow
  · exact Int.lt_of_le_of_lt hhigh (by decide)

def Frame.WithinScale (f : Frame) : Prop :=
  (-fullScale ≤ f.left.toInt ∧ f.left.toInt ≤ fullScale) ∧
    (-fullScale ≤ f.right.toInt ∧ f.right.toInt ≤ fullScale)

theorem Mix.isByteSum_hear {n : Nat} (hn : n < UInt16.size) (m : Mix) {side : Float}
    (h : IsByteSum n side) (nodes : List NodeId) : IsByteSum (n + 1) (m.hear side nodes) := by
  obtain ⟨k, hk, rfl⟩ := h
  rw [Mix.hear]
  split
  · exact ⟨k, by omega, rfl⟩
  · obtain ⟨b, hle, hlt, hb⟩ := Double.byteToUnit_eq_level (m.sum nodes)
    have hsize : n < 2 ^ 16 := hn
    refine ⟨k + b, by omega, ?_⟩
    rw [hb, Double.level_add_level (by omega) (by omega) (by omega)]

/-- What a voice evaluates its program on. -/
def Voice.inputs (v : Voice) (globals : Globals) (m : Mix) : Inputs :=
  { channels := v.sources.map m.sum, globals }

theorem Voice.play_eq (v : Voice) (globals : Globals) (m : Mix) :
    (v.play globals m).2 = m.put v.node
      (v.evaluator.evaluate v.refresh.mailbox.current (v.inputs globals m)).1 := rfl

namespace Stage

/-- What a stage evaluates its program on, if it is an expression. -/
def inputs? (globals : Globals) : Stage → Mix → Option Inputs
  | voice v, m => some (v.inputs globals m)
  | output _ _, _ => none

theorem length_playAll (globals : Globals) (stages : List Stage) (m : Mix) :
    (playAll globals stages m).1.length = stages.length := by
  induction stages generalizing m with
  | nil => rfl
  | cons s rest ih => exact congrArg (· + 1) (ih _)

def inputsAll (globals : Globals) : List Stage → Mix → List Inputs
  | [], _ => []
  | s :: rest, m => (s.inputs? globals m).toList ++ inputsAll globals rest (s.play globals m).2

/-- The mix after at most `n` outputs: the values are finite and the sides are sums of `n` bytes. -/
structure Heard (m : Mix) (n : Nat) : Prop where
  values : m.Finite
  left : IsByteSum n m.left
  right : IsByteSum n m.right

variable {globals : Globals} {m : Mix} {n : Nat}

theorem Heard.isNaN_inputs (h : Heard m n) {s : Stage} {inputs : Inputs}
    (hs : s.inputs? globals m = some inputs) : ∀ v ∈ inputs.channels, v.isNaN = false := by
  cases s with
  | voice v =>
    cases hs
    intro x hx
    obtain ⟨nodes, -, rfl⟩ := Vector.mem_map.1 hx
    exact h.values.isNaN_sum nodes
  | output stereo sources => cases hs

theorem Heard.play (h : Heard m n) (hn : n < UInt16.size) (globals : Globals) (s : Stage) :
    Heard (s.play globals m).2 (n + 1) := by
  cases s with
  | voice v =>
    have hmore : ∀ {x : Float}, IsByteSum n x → IsByteSum (n + 1) x :=
      fun ⟨k, hk, hx⟩ => ⟨k, by omega, hx⟩
    have hplay : ((voice v).play globals m).2 = _ := v.play_eq globals m
    rw [hplay]
    exact ⟨h.values.put v.node (Evaluator.isFinite_evaluate _ _ _), hmore h.left, hmore h.right⟩
  | output stereo sources =>
    exact ⟨h.values, m.isByteSum_hear hn h.left _, m.isByteSum_hear hn h.right _⟩

/-- A pass keeps values finite and adds one byte a stage at most; no expression in it reads
not-a-number. -/
theorem Heard.playAll (globals : Globals) (stages : List Stage) :
    ∀ {m : Mix} {n : Nat}, Heard m n → n + stages.length ≤ UInt16.size →
      Heard (playAll globals stages m).2 (n + stages.length) ∧
        ∀ inputs ∈ inputsAll globals stages m, ∀ v ∈ inputs.channels, v.isNaN = false := by
  induction stages with
  | nil => exact fun h _ => ⟨h, fun _ hmem => absurd hmem List.not_mem_nil⟩
  | cons s rest ih =>
    intro m n h hn
    rw [List.length_cons] at hn
    have hlt : n < UInt16.size := by omega
    have hrest : n + 1 + rest.length ≤ UInt16.size := by omega
    obtain ⟨hheard, hread⟩ := ih (h.play hlt globals s) hrest
    refine ⟨?_, fun inputs hmem => ?_⟩
    · rw [List.length_cons, Nat.add_comm rest.length, ← Nat.add_assoc]
      exact hheard
    · rcases List.mem_append.1 hmem with hmem | hmem
      · exact h.isNaN_inputs (Option.mem_toList.1 hmem)
      · exact hread inputs hmem

end Stage

namespace Player

/-- The sums of a frame, before it is made of them. -/
def mix (p : Player) : Mix := (Stage.playAll p.clock.globals p.stages { values := p.values }).2

def inputs (p : Player) : List Inputs :=
  Stage.inputsAll p.clock.globals p.stages { values := p.values }

/-- Every value is finite, and there are no more stages than ids. -/
structure Settled (p : Player) : Prop where
  values : ∀ v ∈ p.values, v.isFinite = true
  stages : p.stages.length ≤ UInt16.size

variable {p : Player}

theorem settled_ofPatch {patch : Patch} {sampleRate : Float}
    (h : ofPatch patch sampleRate = .ok p) : p.Settled := by
  obtain ⟨order, hsound, rfl⟩ := ofPatch_eq_ok_iff_sound.1 h
  refine ⟨fun v hv => ?_, ?_⟩
  · obtain ⟨-, rfl⟩ := Array.mem_replicate.1 hv
    rfl
  · show (order.map _).length ≤ UInt16.size
    rw [List.length_map]
    exact Patch.length_le_of_lt hsound.nodup fun id _ => id.toNat_lt

theorem Settled.heard (h : p.Settled) :
    Stage.Heard p.mix p.stages.length ∧
      ∀ inputs ∈ p.inputs, ∀ v ∈ inputs.channels, v.isNaN = false := by
  have hstart : Stage.Heard { values := p.values } 0 := ⟨h.values, isByteSum_zero, isByteSum_zero⟩
  have hpass := hstart.playAll p.clock.globals p.stages (by rw [Nat.zero_add]; exact h.stages)
  rwa [Nat.zero_add] at hpass

theorem Settled.setMailbox (h : p.Settled) (node : NodeId) (m : Mailbox) :
    (p.setMailbox node m).Settled :=
  ⟨h.values, by rw [Player.setMailbox, List.length_map]; exact h.stages⟩

theorem Settled.publish (h : p.Settled) (node : NodeId) (program : Program) :
    (p.publish node program).1.Settled := by
  rw [Player.publish]
  cases p.mailbox? node with
  | some m => exact h.setMailbox node _
  | none => exact h

theorem Settled.reclaim (h : p.Settled) (node : NodeId) : (p.reclaim node).1.Settled := by
  rw [Player.reclaim]
  cases p.mailbox? node with
  | some m => exact h.setMailbox node _
  | none => exact h

theorem Settled.call (h : p.Settled) (c : Call) :
    (p.call c).2.Settled ∧ ∀ f ∈ (p.call c).1, f.WithinScale := by
  have hsilent : ∀ f ∈ ([] : List Frame), f.WithinScale := fun _ hf => absurd hf List.not_mem_nil
  cases c with
  | publish node text =>
    rw [Player.call]
    cases Program.compile text with
    | error e => exact ⟨h, hsilent⟩
    | ok program => exact ⟨h.publish node program, hsilent⟩
  | reclaim node => exact ⟨h.reclaim node, hsilent⟩
  | refresh => exact ⟨⟨h.values, (List.length_map _).trans_le h.stages⟩, hsilent⟩
  | renderFrame =>
    obtain ⟨hheard, -⟩ := h.heard
    refine ⟨⟨hheard.values, (Stage.length_playAll _ _ _).trans_le h.stages⟩, fun f hf => ?_⟩
    rw [List.mem_singleton.1 hf]
    exact ⟨hheard.left.sample_bounds h.stages, hheard.right.sample_bounds h.stages⟩
  | startNote frequency | sync t | prepare sampleRate => exact ⟨⟨h.values, h.stages⟩, hsilent⟩

theorem Settled.perform (h : p.Settled) (calls : List Call) :
    (p.perform calls).2.Settled ∧ ∀ f ∈ (p.perform calls).1, f.WithinScale := by
  induction calls generalizing p with
  | nil => exact ⟨h, fun _ hf => absurd hf List.not_mem_nil⟩
  | cons c calls ih =>
    obtain ⟨hcall, hframes⟩ := h.call c
    obtain ⟨hrest, hlater⟩ := ih hcall
    refine ⟨hrest, fun f hf => ?_⟩
    rcases List.mem_append.1 hf with hf | hf
    · exact hframes f hf
    · exact hlater f hf

/-- **What is not finite stays inside an expression.** In every run of a player of a patch, whatever
is published to it and whatever a note, the host or a sample rate puts into the clock, every node
has a finite value, no expression reads not-a-number at a channel, and the frames are made of
finite sums, with both samples within full scale. -/
theorem values_stay_finite {patch : Patch} {sampleRate : Float} {player : Player}
    (h : ofPatch patch sampleRate = .ok player) (calls : List Call) :
    let p := (player.perform calls).2
    (∀ v ∈ p.values, v.isFinite = true) ∧
      (∀ inputs ∈ p.inputs, ∀ v ∈ inputs.channels, v.isNaN = false) ∧
      (p.mix.left.isFinite = true ∧ p.mix.right.isFinite = true) ∧
      ∀ f ∈ (player.perform calls).1, (-32767 ≤ f.left.toInt ∧ f.left.toInt ≤ 32767) ∧
        (-32767 ≤ f.right.toInt ∧ f.right.toInt ≤ 32767) := by
  obtain ⟨hsettled, hframes⟩ := (settled_ofPatch h).perform calls
  obtain ⟨hheard, hinputs⟩ := hsettled.heard
  exact ⟨hsettled.values, hinputs, ⟨hheard.left.isFinite hsettled.stages,
    hheard.right.isFinite hsettled.stages⟩, hframes⟩

/-- A sample rate that is not a number and a note whose frequency overflows where it is added to
itself. -/
theorem values_stay_finite_overflowing :
    let patch := Patch.ofKinds
      [.expression "nf", .expression "a", .expression "t", .output false]
      [⟨0, 1, 0⟩, ⟨0, 1, 0⟩, ⟨1, 3, 0⟩, ⟨2, 3, 0⟩]
    let calls : List Call := [.publish 0 "nf", .publish 1 "a", .publish 2 "t", .prepare (0 / 0),
      .startNote 1e308, .renderFrame]
    ∃ player, ofPatch patch 8000 = .ok player ∧
      let p := (player.perform calls).2
      p.clock.globals.sampleRate.isNaN = true ∧ p.clock.globals.byteTime.isNaN = true ∧
        p.inputs.any (·.channels[0].isInf) = true ∧
        (∀ v ∈ p.values, v.isFinite = true) ∧
        (∀ inputs ∈ p.inputs, ∀ v ∈ inputs.channels, v.isNaN = false) ∧
        p.mix.left.isFinite = true := by
  intro patch calls
  have hsound : (Layout.ofPatch patch [0, 1, 2, 3] 8000).Sound :=
    ⟨by decide +kernel, by decide +kernel⟩
  have hplayer := ofPatch_eq_ok_iff_sound.2 ⟨_, hsound, rfl⟩
  obtain ⟨hvalues, hinputs, ⟨hleft, -⟩, -⟩ := values_stay_finite hplayer calls
  exact ⟨_, hplayer, by decide +kernel, by decide +kernel, by decide +kernel, hvalues, hinputs,
    hleft⟩

end Player

end Bytebeat
