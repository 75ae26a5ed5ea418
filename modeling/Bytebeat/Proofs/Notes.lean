import Bytebeat.Proofs.Agreement

/-!
# A note sounds the same whatever was played before

Two players of one patch, each with a history of its own, that have the same
programs installed. Starting a note sets back all that a program can read,
except for random numbers, the free-running counters and the host's position
(`Atom.lasting`). Of a clock there remains what was set back and what the sample
rate, the beat and the note determine (`Clock.sinceNote`), and layouts that
agree on this and on their programs render the same frames
(`Layout.SoundsLike.renderFrame`), although their evaluators, their free
counters and their last values may all differ (`Player.startNote_forgets`).
-/

namespace Bytebeat

/-- The operands that a note does not set back. -/
def Atom.lasting : List Atom :=
  [.random, .reading .freeSamples, .reading .freeSeconds, .reading .positionSamples,
    .reading .positionSeconds]

/-- The program reads nothing that lasts from before a note. -/
def Program.Forgetful (p : Program) : Prop := ∀ a ∈ Atom.lasting, .atom a ∉ p.tokens

instance (p : Program) : Decidable p.Forgetful :=
  inferInstanceAs (Decidable (∀ a ∈ Atom.lasting, .atom a ∉ p.tokens))

/-! ## The clock -/

namespace Clock

/-- What there is to a clock since the note started: without the host's transport, except for the
beat, and without the free-running counters. -/
def sinceNote (c : Clock) : Clock := c.sync { beatsPerSecond := c.globals.beatsPerSecond }

theorem sinceNote_advance (c : Clock) : c.advance.sinceNote = c.sinceNote.advance.sinceNote := rfl

theorem get_sinceNote (c : Clock) {r : Reading} (hr : .reading r ∉ Atom.lasting) :
    c.sinceNote.globals.get r = c.globals.get r := by
  cases r with
  | freeSeconds | freeSamples | positionSeconds | positionSamples => exact absurd (by decide) hr
  | _ => rfl

/-- The amounts to advance by are those of the sample rate. -/
structure Paced (c : Clock) : Prop where
  seconds : c.secondsPerSample = 1 / c.globals.sampleRate
  ticks : c.ticksPerSample = byteTimeRate / c.globals.sampleRate

theorem Paced.sinceNote_startNote {c c' : Clock} (h : c.Paced) (h' : c'.Paced)
    (hrate : c'.globals.sampleRate = c.globals.sampleRate)
    (hbeat : c'.globals.beatsPerSecond = c.globals.beatsPerSecond) (frequency : Float) :
    (c'.startNote frequency).sinceNote = (c.startNote frequency).sinceNote := by
  simp only [sinceNote, sync, startNote, h.seconds, h.ticks, h'.seconds, h'.ticks, hrate, hbeat]

end Clock

theorem Player.paced_call {p : Player} (h : p.clock.Paced) (c : Call) :
    (p.call c).2.clock.Paced := by
  cases c with
  | publish node text =>
    simp only [call]
    cases Program.compile text with
    | error e => exact h
    | ok program =>
      simp only [publish]
      cases p.mailbox? node <;> exact h
  | reclaim node =>
    simp only [call, reclaim]
    cases p.mailbox? node <;> exact h
  | refresh => exact h
  | renderFrame => exact ⟨h.seconds, h.ticks⟩
  | startNote frequency => exact ⟨h.seconds, h.ticks⟩
  | sync t => exact ⟨h.seconds, h.ticks⟩
  | prepare sampleRate => exact ⟨rfl, rfl⟩

theorem Player.paced_perform {p : Player} (h : p.clock.Paced) (calls : List Call) :
    (p.perform calls).2.clock.Paced := by
  induction calls generalizing p with
  | nil => exact h
  | cons c calls ih => exact ih (p.paced_call h c)

/-! ## Programs -/

theorem Expression.value_congr {inputs inputs' : Inputs} {literal draw draw' : Nat → Float}
    (e : Expression)
    (h : ∀ a, .atom a ∈ e.postOrder → ∀ x y y', a.value inputs' x y' = a.value inputs x y) :
    ∀ k j j', e.value inputs' literal draw' k j' = e.value inputs literal draw k j := by
  induction e with
  | leaf a => exact fun k j j' => h a (by simp [postOrder]) _ _ _
  | unary op e ih =>
    intro k j j'
    have he := ih (fun a ha => h a (by simp [postOrder, ha]))
    simp only [value, he k j j']
  | binary op l r ihl ihr =>
    intro k j j'
    have hl := ihl (fun a ha => h a (by simp [postOrder, ha]))
    have hr := ihr (fun a ha => h a (by simp [postOrder, ha]))
    simp only [value, hl k j j', hr _ (j + l.count .random) (j' + l.count .random)]

theorem Mailbox.newest_of_idle {m : Mailbox} (h : m.pending = 0) : m.newest = m.current := by
  rw [newest, List.eq_nil_of_length_eq_zero h]
  rfl

namespace Program

variable {p : Program} {inputs inputs' : Inputs} {g g' : Generator} {v : Float}

theorem Means.congr (h : p.Means inputs g v)
    (hinputs : ∀ a, .atom a ∈ p.tokens → ∀ x y y', a.value inputs' x y' = a.value inputs x y) :
    p.Means inputs' g' v := by
  rcases h with hempty | ⟨e, ⟨he, huniq⟩, rfl⟩
  · exact .inl hempty
  · refine .inr ⟨e, ⟨he, huniq⟩, congrArg Evaluator.settle ?_⟩
    exact (e.value_congr (he ▸ hinputs) 0 0 0).symm

/-- On the same channels such a program has the same value with any generator, stack and clock that
are alike since the note started. -/
theorem Forgetful.evaluate_congr (h : p.Forgetful) {text : String} (hp : compile text = .ok p)
    (e e' : Evaluator) (channels : Vector Float 4) {c c' : Clock}
    (hclock : c'.sinceNote = c.sinceNote) :
    (e'.evaluate p { channels, globals := c'.globals }).1 =
      (e.evaluate p { channels, globals := c.globals }).1 := by
  obtain ⟨hmeans, -⟩ := Evaluator.means_evaluate hp e { channels, globals := c.globals }
  obtain ⟨hmeans', -⟩ := Evaluator.means_evaluate hp e' { channels, globals := c'.globals }
  refine hmeans'.unique (hmeans.congr fun a ha x y y' => ?_)
  have hlasting : a ∉ Atom.lasting := fun hmem => h a hmem ha
  cases a with
  | random => exact absurd (by decide) hlasting
  | reading r =>
    simp only [Atom.value]
    rw [← c'.get_sinceNote hlasting, ← c.get_sinceNote hlasting, hclock]
  | _ => rfl

end Program

/-! ## Layouts -/

namespace Layout

variable {l l' : Layout}

/-- Two layouts of one patch with the same programs, none of which reads what lasts from before a
note, and clocks that are alike since the note started. -/
structure SoundsLike (l l' : Layout) : Prop where
  filled : l.Filled
  filled' : l'.Filled
  patch : l'.patch = l.patch
  clock : l'.clock.sinceNote = l.clock.sinceNote
  newest : ∀ id, l.isVoice id = true → (l'.mailbox id).newest = (l.mailbox id).newest
  compiled : ∀ id, ∃ text, Program.compile text = .ok (l.mailbox id).newest
  forgetful : ∀ id, l.isVoice id = true → (l.mailbox id).newest.Forgetful
  others : ∀ id, l.isVoice id = false → l'.values[id.toNat]? = l.values[id.toNat]?

theorem SoundsLike.values_renderFrame (h : l.SoundsLike l') (id : NodeId) :
    l'.renderFrame.2.values[id.toNat]? = l.renderFrame.2.values[id.toNat]? := by
  refine h.filled.values_renderFrame_congr h.filled' h.patch (fun _ _ _ _ => Set.mem_univ _)
    (fun id _ hid m => ?_) (fun id _ hid => h.others id hid) id (Set.mem_univ id)
  obtain ⟨text, hcompile⟩ := h.compiled id
  rw [evaluated, evaluated, h.newest id hid, h.patch]
  exact (h.forgetful id hid).evaluate_congr hcompile _ _ _ h.clock

theorem SoundsLike.renderFrame (h : l.SoundsLike l') :
    l'.renderFrame.1 = l.renderFrame.1 ∧ l.renderFrame.2.SoundsLike l'.renderFrame.2 := by
  have hvoice : l.renderFrame.2.isVoice = l.isVoice := isVoice_congr l.patch_renderFrame
  have hnewest : ∀ (l : Layout) id, (l.renderFrame.2.mailbox id).newest = (l.mailbox id).newest :=
    fun l id => newest_playAll _ _ _ _ _
  refine ⟨h.filled.frame_congr h.filled'.toSound h.patch
    fun _ _ k _ => h.values_renderFrame k, h.filled.call .renderFrame,
    h.filled'.call .renderFrame, ?_, ?_, fun id hid => ?_, fun id => ?_, fun id hid => ?_,
    fun id _ => h.values_renderFrame id⟩
  · rw [patch_renderFrame, patch_renderFrame, h.patch]
  · have hadvance : l'.clock.advance.sinceNote = l.clock.advance.sinceNote := by
      rw [Clock.sinceNote_advance, h.clock, ← Clock.sinceNote_advance]
    exact hadvance
  · rw [hnewest, hnewest, h.newest id (hvoice ▸ hid)]
  · rw [hnewest]
    exact h.compiled id
  · rw [hnewest]
    exact h.forgetful id (hvoice ▸ hid)

/-- They render the same frames, and from the first on their values are the same. -/
theorem SoundsLike.renderFrames (h : l.SoundsLike l') (count : Nat) :
    (l'.renderFrames count).1 = (l.renderFrames count).1 ∧
      (1 ≤ count ∨ (∀ id : NodeId, l'.values[id.toNat]? = l.values[id.toNat]?) →
        ∀ id : NodeId, (l'.renderFrames count).2.values[id.toNat]? =
          (l.renderFrames count).2.values[id.toNat]?) := by
  induction count generalizing l l' with
  | zero => exact ⟨rfl, fun hvalues => hvalues.resolve_left (by omega)⟩
  | succ count ih =>
    obtain ⟨hframe, hnext⟩ := h.renderFrame
    obtain ⟨hframes, hvalues⟩ := ih hnext
    exact ⟨congrArg₂ List.cons hframe hframes, fun _ => hvalues (.inr h.values_renderFrame)⟩

end Layout

/-! ## Players with a history -/

def Stage.held? : Stage → Option (NodeId × Mailbox)
  | voice v => some (v.node, v.mailbox)
  | output _ _ => none

namespace Player

/-- The player has been built of the patch and played on. -/
def Plays (p : Patch) (s : Player) : Prop :=
  ∃ sampleRate player steps, ofPatch p sampleRate = .ok player ∧ (player.run steps).2 = s

def mailboxes (p : Player) : List (NodeId × Mailbox) :=
  p.stages.filterMap Stage.held?

def installed (p : Player) : List (NodeId × Program) :=
  p.mailboxes.map fun (node, m) => (node, m.current)

end Player

theorem Layout.Sound.mailboxes_player {l : Layout} (h : l.Sound) :
    l.player.mailboxes = (l.order.filter l.isVoice).map fun id => (id, l.mailbox id) := by
  rw [Player.mailboxes, Layout.player, List.filterMap_map, ← List.filterMap_eq_map,
    List.filterMap_filter]
  refine List.filterMap_congr fun id hid => ?_
  cases hout : l.patch.output? id with
  | some stereo =>
    have hvoice : l.isVoice id = false := by
      rw [← Bool.not_eq_true, h.isVoice_iff hid, hout]
      exact Option.some_ne_none stereo
    simp [hvoice, stage_of_output hout, Stage.held?]
  | none => simp [(h.isVoice_iff hid).2 hout, stage_of_voice hout, Stage.held?]

theorem Layout.Sound.mem_mailboxes {l : Layout} (h : l.Sound) {id : NodeId}
    (hid : l.isVoice id = true) : (id, l.mailbox id) ∈ l.player.mailboxes := by
  rw [h.mailboxes_player]
  exact List.mem_map_of_mem (List.mem_filter.2 ⟨h.mem_order_of_isVoice hid, hid⟩)

theorem Layout.Sound.current_congr {l l' : Layout} (h : l.Sound) (h' : l'.Sound)
    (hpatch : l'.patch = l.patch) (hinstalled : l'.player.installed = l.player.installed)
    {id : NodeId} (hid : l.isVoice id = true) :
    (l'.mailbox id).current = (l.mailbox id).current := by
  rw [Player.installed, Player.installed, h.mailboxes_player, h'.mailboxes_player,
    h.order_congr h' hpatch, isVoice_congr hpatch, List.map_map, List.map_map,
    List.map_inj_left] at hinstalled
  exact congrArg Prod.snd
    (hinstalled id (List.mem_filter.2 ⟨h.mem_order_of_isVoice hid, hid⟩))

theorem Performance.LaidOut.value_of_not_voice {s : Performance} {l : Layout} (h : s.LaidOut l)
    {id : NodeId} (hid : l.isVoice id = false) :
    l.values[id.toNat]? = if (l.patch.output? id).isSome then some 0 else none := by
  cases hout : (l.patch.output? id).isSome with
  | true => rw [h.silent id hout, if_pos rfl]
  | false =>
    rw [if_neg Bool.false_ne_true, Array.getElem?_eq_none_iff, h.size, ← Nat.not_lt]
    intro hlt
    have hmem : id ∈ l.order := (Patch.mem_order_iff h.sound.ordered id).2 hlt
    rw [Option.isSome_eq_false_iff, Option.isNone_iff_eq_none, ← h.sound.isVoice_iff hmem] at hout
    rw [hout] at hid
    cases hid

namespace Player

variable {p : Patch} {s s' : Player}

theorem Plays.exists_layout (h : Plays p s) :
    ∃ (t : Performance) (l : Layout), t.LaidOut l ∧ l.patch = p ∧ l.player = s ∧
      s.clock.Paced := by
  obtain ⟨sampleRate, player, steps, hplayer, rfl⟩ := h
  obtain ⟨order, hsound, rfl⟩ := ofPatch_eq_ok_iff_sound.1 hplayer
  obtain ⟨l, hl, hpatch⟩ :=
    (Performance.laidOut_ofPatch hsound).after (steps.flatMap Step.calls)
  refine ⟨_, l, hl, hpatch, ?_, ?_⟩
  · rw [← hl.player, Performance.player_after, run_eq_perform]
  · rw [run_eq_perform]
    exact paced_perform ⟨rfl, rfl⟩ _

/-- **A note sounds the same whatever was played before it.** Take two players of a patch, each
with any history, with the same programs installed and none to be installed, at the same sample
rate and beat. If no program reads random numbers, the free-running counters or the host's
position, a note that is started in both at one frequency has the same frames, however many, and
from the first frame on every node has the same value. -/
theorem startNote_forgets (h : Plays p s) (h' : Plays p s')
    (hinstalled : s'.installed = s.installed)
    (hpending : ∀ m ∈ s.mailboxes, m.2.pending = 0)
    (hpending' : ∀ m ∈ s'.mailboxes, m.2.pending = 0)
    (hforgetful : ∀ m ∈ s.installed, m.2.Forgetful)
    (hrate : s'.clock.globals.sampleRate = s.clock.globals.sampleRate)
    (hbeat : s'.clock.globals.beatsPerSecond = s.clock.globals.beatsPerSecond)
    (frequency : Float) (n : Nat) :
    let note := (s.startNote frequency).renderFrames n
    let note' := (s'.startNote frequency).renderFrames n
    note'.1 = note.1 ∧ (1 ≤ n → ∀ id, note'.2.value? id = note.2.value? id) := by
  obtain ⟨t, l, hl, hpatch, rfl, hpaced⟩ := h.exists_layout
  obtain ⟨t', l', hl', hpatch', rfl, hpaced'⟩ := h'.exists_layout
  have heq : l'.patch = l.patch := hpatch'.trans hpatch.symm
  have hvoice : l'.isVoice = l.isVoice := Layout.isVoice_congr heq
  have hidle : ∀ id, l.isVoice id = true → (l.mailbox id).newest = (l.mailbox id).current :=
    fun id hid => Mailbox.newest_of_idle (hpending _ (hl.sound.mem_mailboxes hid))
  have hidle' : ∀ id, l.isVoice id = true → (l'.mailbox id).newest = (l'.mailbox id).current :=
    fun id hid => Mailbox.newest_of_idle (hpending' _ (hl'.sound.mem_mailboxes (hvoice ▸ hid)))
  have hlike : Layout.SoundsLike { l with clock := l.clock.startNote frequency }
      { l' with clock := l'.clock.startNote frequency } := by
    refine ⟨⟨hl.sound.congr rfl rfl, hl.size⟩, ⟨hl'.sound.congr rfl rfl, hl'.size⟩, heq,
      hpaced.sinceNote_startNote hpaced' hrate hbeat frequency, fun id hid => ?_, fun id => ?_,
      fun id hid => ?_, fun id hid => ?_⟩
    · rw [hidle id hid, hidle' id hid]
      exact hl.sound.current_congr hl'.sound heq hinstalled hid
    · rw [hl.newest]
      exact hl.compiled id
    · rw [hidle id hid]
      exact hforgetful _ (List.mem_map_of_mem (hl.sound.mem_mailboxes hid))
    · rw [hl.value_of_not_voice hid, hl'.value_of_not_voice (hvoice ▸ hid), heq]
  have hplayer : l.player.startNote frequency =
      { l with clock := l.clock.startNote frequency }.player := rfl
  have hplayer' : l'.player.startNote frequency =
      { l' with clock := l'.clock.startNote frequency }.player := rfl
  obtain ⟨hframes, hvalues⟩ := hlike.renderFrames n
  simp only [hplayer, hplayer', hlike.filled.renderFrames_player, hlike.filled'.renderFrames_player]
  exact ⟨congrArg List.toArray hframes, fun hn => hvalues (.inl hn)⟩

/-- A new player, and one built for another sample rate that has been played on with other programs
and a host. -/
theorem startNote_forgets_encore :
    let p := Patch.ofKinds [.expression "", .output false] [⟨0, 1, 0⟩]
    let fresh := (Layout.ofPatch p [0, 1] 8000).player.run
      [.call (.publish 0 "t*3"), .call .refresh]
    let played := (Layout.ofPatch p [0, 1] 44100).player.run
      [.call (.publish 0 "rand+f"), .call (.sync { playing := true, beatsPerSecond := 2 }),
        .renderBlock 2, .call (.startNote 330), .call (.prepare 8000), .call (.publish 0 "t*3"),
        .call .renderFrame, .call (.sync {})]
    Plays p fresh.2 ∧ Plays p played.2 ∧ fresh.2.clock ≠ played.2.clock ∧
      ((played.2.startNote 440).renderFrames 3).1 = ((fresh.2.startNote 440).renderFrames 3).1 ∧
      ((played.2.startNote 440).renderFrames 3).2.value? 0 =
        ((fresh.2.startNote 440).renderFrames 3).2.value? 0 := by
  intro p fresh played
  have hsound : (Layout.ofPatch p [0, 1] 8000).Sound := ⟨by decide +kernel, by decide +kernel⟩
  have hbuilt : ∀ sampleRate,
      ofPatch p sampleRate = .ok (Layout.ofPatch p [0, 1] sampleRate).player :=
    fun _ => ofPatch_eq_ok_iff_sound.2 ⟨_, hsound.congr rfl rfl, rfl⟩
  have hfresh : Plays p fresh.2 := ⟨_, _, _, hbuilt 8000, rfl⟩
  have hplayed : Plays p played.2 := ⟨_, _, _, hbuilt 44100, rfl⟩
  have hinstalled : played.2.installed = fresh.2.installed := by decide +kernel
  have hpending : ∀ m ∈ fresh.2.mailboxes, m.2.pending = 0 := by decide +kernel
  have hpending' : ∀ m ∈ played.2.mailboxes, m.2.pending = 0 := by decide +kernel
  have hforgetful : ∀ m ∈ fresh.2.installed, m.2.Forgetful := by decide +kernel
  have hrate : played.2.clock.globals.sampleRate = fresh.2.clock.globals.sampleRate := by
    decide +kernel
  have hbeat : played.2.clock.globals.beatsPerSecond = fresh.2.clock.globals.beatsPerSecond := by
    decide +kernel
  obtain ⟨hframes, hvalues⟩ := startNote_forgets hfresh hplayed hinstalled hpending hpending'
    hforgetful hrate hbeat 440 3
  exact ⟨hfresh, hplayed, by decide +kernel, hframes, hvalues (by omega) 0⟩

end Player

end Bytebeat
