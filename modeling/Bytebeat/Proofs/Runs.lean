import Bytebeat.Proofs.Performance

/-!
# Runs of a player

Rows of calls on a player, with the frames that they render (`Player.perform`),
and rows of steps that may also be blocks of frames (`Player.run`); a block is
so many frames one after the other (`Player.run_eq_perform`). A player that is
laid out is called node by node (`Layout.Sound.call_player`), and what is laid
out keeps its nodes, their order and a value for each (`Layout.Filled.call`).
-/

namespace Bytebeat

namespace Player

/-! ## Calls and steps -/

def call (p : Player) : Call → List Frame × Player
  | .publish node text =>
    match Program.compile text with
    | .error _ => ([], p)
    | .ok program => ([], (p.publish node program).1)
  | .reclaim node => ([], (p.reclaim node).1)
  | .refresh => ([], p.refresh)
  | .renderFrame => ([p.renderFrame.1], p.renderFrame.2)
  | .startNote frequency => ([], p.startNote frequency)
  | .sync t => ([], p.sync t)
  | .prepare sampleRate => ([], p.prepare sampleRate)

def perform (p : Player) : List Call → List Frame × Player
  | [] => ([], p)
  | c :: calls =>
    let (frames, p) := p.call c
    let (later, p) := p.perform calls
    (frames ++ later, p)

/-- A call, or a block of frames rendered at once. -/
inductive Step where
  | call (c : Call)
  | renderBlock (count : Nat)

def take (p : Player) : Step → List Frame × Player
  | .call c => p.call c
  | .renderBlock count =>
    let (frames, p) := p.renderFrames count
    (frames.toList, p)

def run (p : Player) : List Step → List Frame × Player
  | [] => ([], p)
  | s :: steps =>
    let (frames, p) := p.take s
    let (later, p) := p.run steps
    (frames ++ later, p)

theorem perform_append (p : Player) (calls calls' : List Call) :
    p.perform (calls ++ calls') =
      ((p.perform calls).1 ++ ((p.perform calls).2.perform calls').1,
        ((p.perform calls).2.perform calls').2) := by
  induction calls generalizing p with
  | nil => rfl
  | cons c calls ih => simp only [List.cons_append, perform, ih, List.append_assoc]

def Step.calls : Step → List Call
  | .call c => [c]
  | .renderBlock count => List.replicate count .renderFrame

theorem renderAfter_eq_perform (p : Player) (done : Array Frame) (count : Nat) :
    p.renderAfter done count =
      (done ++ (p.perform (List.replicate count .renderFrame)).1.toArray,
        (p.perform (List.replicate count .renderFrame)).2) := by
  induction count generalizing p done with
  | zero => simp [renderAfter, perform]
  | succ count ih => simp [renderAfter, List.replicate_succ, perform, call, ih]

theorem take_eq_perform (p : Player) (s : Step) : p.take s = p.perform s.calls := by
  cases s with
  | call c => simp [take, Step.calls, perform]
  | renderBlock count =>
    simp [take, Step.calls, renderFrames, renderAfter_eq_perform]

theorem run_eq_perform (p : Player) (steps : List Step) :
    p.run steps = p.perform (steps.flatMap Step.calls) := by
  induction steps generalizing p with
  | nil => rfl
  | cons s steps ih =>
    rw [List.flatMap_cons, perform_append, run]
    simp only [take_eq_perform, ih]

end Player

theorem Performance.player_step (s : Performance) (c : Player.Call) :
    (s.step c).player = (s.player.call c).2 := by
  cases c with
  | publish node text =>
    simp only [step, Player.call]
    cases Program.compile text <;> rfl
  | _ => rfl

theorem Performance.player_after (s : Performance) (calls : List Player.Call) :
    (s.after calls).player = (s.player.perform calls).2 := by
  induction calls generalizing s with
  | nil => rfl
  | cons c calls ih =>
    have hcons : s.after (c :: calls) = (s.step c).after calls := rfl
    rw [hcons, ih, player_step]
    rfl

/-! ## Node by node -/

namespace Layout

def call (l : Layout) : Player.Call → List Frame × Layout
  | .publish node text =>
    match Program.compile text with
    | .error _ => ([], l)
    | .ok program => ([], l.setMailbox node ((l.mailbox node).publish program).1)
  | .reclaim node => ([], l.setMailbox node (l.mailbox node).reclaim.1)
  | .refresh => ([], { l with mailbox := fun id => (l.mailbox id).refresh.1 })
  | .renderFrame => ([l.renderFrame.1], l.renderFrame.2)
  | .startNote frequency => ([], { l with clock := l.clock.startNote frequency })
  | .sync t => ([], { l with clock := l.clock.sync t })
  | .prepare sampleRate => ([], { l with clock := l.clock.prepare sampleRate })

/-- There is a value for every node. -/
structure Filled (l : Layout) : Prop extends l.Sound where
  size : l.values.size = l.patch.nodes.size

variable {l : Layout}

theorem filled_ofPatch {p : Patch} {order : List NodeId} {sampleRate : Float}
    (h : (ofPatch p order sampleRate).Sound) : (ofPatch p order sampleRate).Filled :=
  ⟨h, Array.size_replicate⟩

theorem Sound.setMailbox_player_of_not (h : l.Sound) {node : NodeId}
    (hnode : l.isVoice node = false) (m : Mailbox) : (l.setMailbox node m).player = l.player := by
  refine h.player_congr fun id hid => Function.update_of_ne (fun heq => ?_) _ _
  rw [heq, hnode] at hid
  cases hid

theorem Sound.call_player (h : l.Sound) (c : Player.Call) :
    l.player.call c = ((l.call c).1, (l.call c).2.player) := by
  cases c with
  | publish node text =>
    simp only [Player.call, call]
    cases Program.compile text with
    | error e => rfl
    | ok program =>
      cases hvoice : l.isVoice node with
      | true => simp only [h.publish_player hvoice]
      | false =>
        simp only [Player.publish, h.mailbox?_player_of_not hvoice,
          h.setMailbox_player_of_not hvoice]
  | reclaim node =>
    simp only [Player.call, call]
    cases hvoice : l.isVoice node with
    | true => simp only [Player.reclaim, h.mailbox?_player hvoice, setMailbox_player]
    | false =>
      simp only [Player.reclaim, h.mailbox?_player_of_not hvoice,
        h.setMailbox_player_of_not hvoice]
  | refresh => simp only [Player.call, call, refresh_player]
  | renderFrame => simp only [Player.call, call, h.renderFrame_player]
  | startNote frequency | sync t | prepare sampleRate => rfl

theorem patch_call (l : Layout) (c : Player.Call) : (l.call c).2.patch = l.patch := by
  cases c with
  | publish node text =>
    simp only [call]
    cases Program.compile text <;> rfl
  | renderFrame => exact l.patch_renderFrame
  | _ => rfl

theorem order_call (l : Layout) (c : Player.Call) : (l.call c).2.order = l.order := by
  cases c with
  | publish node text =>
    simp only [call]
    cases Program.compile text <;> rfl
  | renderFrame => exact l.order_renderFrame
  | _ => rfl

theorem size_call (l : Layout) (c : Player.Call) : (l.call c).2.values.size = l.values.size := by
  cases c with
  | publish node text =>
    simp only [call]
    cases Program.compile text <;> rfl
  | renderFrame => exact size_playAll _ _ _
  | _ => rfl

theorem Filled.call (h : l.Filled) (c : Player.Call) : (l.call c).2.Filled := by
  refine ⟨h.toSound.congr (l.patch_call c) (l.order_call c), ?_⟩
  rw [size_call, patch_call]
  exact h.size

def perform (l : Layout) : List Player.Call → List Frame × Layout
  | [] => ([], l)
  | c :: calls =>
    let (frames, l) := l.call c
    let (later, l) := l.perform calls
    (frames ++ later, l)

theorem Sound.perform_player (h : l.Sound) (calls : List Player.Call) :
    l.player.perform calls = ((l.perform calls).1, (l.perform calls).2.player) := by
  induction calls generalizing l with
  | nil => rfl
  | cons c calls ih =>
    have hnext : (l.call c).2.Sound := h.congr (l.patch_call c) (l.order_call c)
    simp only [Player.perform, perform, h.call_player, ih hnext]

theorem Filled.perform (h : l.Filled) (calls : List Player.Call) : (l.perform calls).2.Filled := by
  induction calls generalizing l with
  | nil => exact h
  | cons c calls ih => exact ih (h.call c)

end Layout

end Bytebeat
