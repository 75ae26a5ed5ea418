import Bytebeat.Proofs.Desk
import Bytebeat.Proofs.Reference
import Bytebeat.Proofs.Renderable
import Bytebeat.Proofs.Runs

/-!
# Rows of actions

What can be done to a session and to the player that it has lent out, in any
order (`Session.Action`), with what is answered (`Session.act`). An action
replaces the patch, sets a text, or comes down to flushes and calls on the
player (`Session.passes_act`); what all of these keep, every action keeps
(`Session.Kept.act`). So whatever row of actions has been taken since it was
created, a session is laid out (`Session.exists_laidOut`), also if the nodes of
its patch are not named by their places.
-/

namespace Bytebeat

namespace Session

/-! ## Actions -/

inductive Action where
  | ask (q : Request)
  | renderWav (seconds : Float)
  | lend
  /-- A call on the player that is lent out. -/
  | lent (c : Player.Call)

inductive Answer where
  | response (r : Response)
  | file (f : Except SessionError (List UInt8))
  /-- The player, unless it was lent out already. -/
  | player (p : Option Player)
  | frames (fs : List Frame)

def onLent (s : Session) (change : Player → Player) : Session :=
  match s.lentPlayer? with
  | some player => { s with player := change player }
  | none => s

def act (s : Session) : Action → Answer × Session
  | .ask q =>
    let (response, s) := s.respond q
    (.response response, s)
  | .renderWav seconds =>
    let (file, s) := s.renderWav seconds
    (.file file, s)
  | .lend =>
    let (s, given) := s.lend
    (.player (if given then s.lentPlayer? else none), s)
  | .lent c =>
    (.frames (s.lentPlayer?.elim [] fun player => (player.call c).1),
      s.onLent fun player => (player.call c).2)

def acts (s : Session) (actions : List Action) : List Answer × Session := answers act s actions

/-- The patches that are set are numbered. -/
def Action.Numbered : Action → Prop
  | ask q => q.Numbered
  | _ => True

/-- Whether the patch stays. Only its session publishes to a player that is lent out. -/
def Action.keepsPatch : Action → Bool
  | ask (.create _) | ask (.createSingle _ _) | ask (.setPatch _) | ask (.loadPatch _) => false
  | lent (.publish _ _) => false
  | _ => true

theorem acts_append (s : Session) (actions actions' : List Action) :
    (s.acts (actions ++ actions')).2 = ((s.acts actions).2.acts actions').2 :=
  answers_append s actions actions'

theorem acts_setPatch {s s' : Session} {patch : Patch} (h : s.setPatch patch = .ok s')
    (later : List Action) : (s.acts (.ask (.setPatch patch) :: later)).2 = (s'.acts later).2 := by
  rw [acts, answers, act, respond, h]
  rfl

theorem setPatch_eq_ok {s : Session} {p : Patch} {order ids : List NodeId}
    (hsound : (Layout.ofPatch p order (Float.ofNat s.sampleRate.toNat)).Sound)
    (hids : order.filter (fun id => (p.expression? id).isSome) = ids)
    (hsorted : ids.Pairwise fun a b => decide (a ≤ b) = true) :
    s.setPatch p = .ok (p.expressions.foldl (fun s (node, text) => s.compileNode node text)
      { patch := p, sampleRate := s.sampleRate, entries := ids.map fun node => { node }
        player := (Layout.ofPatch p order (Float.ofNat s.sampleRate.toNat)).player }) := by
  have hvoices : (Layout.ofPatch p order (Float.ofNat s.sampleRate.toNat)).player.voices = ids := by
    rw [hsound.voices_player, ← List.mergeSort_of_pairwise hsorted, ← hids]
    rfl
  rw [setPatch, Player.ofPatch_eq_ok_iff_sound.2 ⟨_, hsound, rfl⟩, ← hvoices]
  rfl

theorem eq_compileNodes_of_setPatch {s₀ s : Session} {p : Patch} (hset : s₀.setPatch p = .ok s) :
    ∃ order, (Layout.ofPatch p order (Float.ofNat s₀.sampleRate.toNat)).Sound ∧
      s = p.expressions.foldl (fun s (node, text) => s.compileNode node text)
        (ofPlayer p s₀.sampleRate
          (Layout.ofPatch p order (Float.ofNat s₀.sampleRate.toNat)).player) := by
  rw [setPatch] at hset
  cases hplayer : Player.ofPatch p (Float.ofNat s₀.sampleRate.toNat) with
  | error e =>
    rw [hplayer] at hset
    cases hset
  | ok player =>
    rw [hplayer] at hset
    cases hset
    obtain ⟨order, hsound, rfl⟩ := Player.ofPatch_eq_ok_iff_sound.1 hplayer
    exact ⟨order, hsound, rfl⟩

theorem onLent_eq (s : Session) (change : Player → Player) :
    s.onLent change = if s.lent then { s with player := change s.player } else s := by
  rw [onLent, lentPlayer?]
  cases s.lent <;> rfl

/-! ## What an action comes down to -/

/-- The session becomes another by flushes, by lending its player out and by calls on the player
that publish nothing. -/
inductive Passes (s : Session) : Session → Prop where
  | refl : Passes s s
  | flush {s' : Session} : Passes s s' → Passes s s'.flush
  | lend {s' : Session} : Passes s s' → Passes s { s' with lent := true }
  | call {s' : Session} {c : Player.Call} : (∀ node text, c ≠ .publish node text) → Passes s s' →
      Passes s { s' with player := (s'.player.call c).2 }

variable {s s' : Session}

theorem Passes.perform {calls : List Player.Call}
    (hcalls : ∀ c ∈ calls, ∀ node text, c ≠ .publish node text) (h : s.Passes s') :
    s.Passes { s' with player := (s'.player.perform calls).2 } := by
  induction calls generalizing s' with
  | nil => exact h
  | cons c calls ih =>
    obtain ⟨hc, hcalls⟩ := List.forall_mem_cons.1 hcalls
    exact ih hcalls (h.call hc)

theorem passes_renderFrames (s : Session) (count : Nat) :
    s.Passes (s.renderFrames count).2 := by
  rw [renderFrames]
  split
  · exact .flush .refl
  · simp only [Player.renderFrames, Player.renderAfter_eq_perform]
    refine Passes.perform ?_ (.flush .refl)
    rintro c hc node text rfl
    cases List.eq_of_mem_replicate hc

/-- An action that keeps the patch sets a text, or comes down to flushes and calls. -/
theorem passes_act {a : Action} (ha : a.keepsPatch = true) (s : Session) :
    (∃ node text, a = .ask (.setExpression node text)) ∨ s.Passes (s.act a).2 := by
  cases a with
  | ask q =>
    cases q with
    | create _ | createSingle _ _ | setPatch _ | loadPatch _ => cases ha
    | setExpression node text => exact .inl ⟨node, text, rfl⟩
    | flush => exact .inr (.flush .refl)
    | startNote frequency =>
      refine .inr ?_
      simp only [act, respond, startNote]
      split
      · exact .refl
      · exact .call nofun .refl (c := .startNote frequency)
    | sync t =>
      refine .inr ?_
      simp only [act, respond, sync]
      split
      · exact .refl
      · exact .call nofun .refl (c := .sync t)
    | renderFrames count => exact .inr (s.passes_renderFrames count)
  | renderWav seconds =>
    refine .inr ?_
    simp only [act, renderWav]
    split
    · exact s.passes_renderFrames _
    · exact .refl
  | lend => exact .inr (.lend (.flush .refl))
  | lent c =>
    refine .inr ?_
    simp only [act, onLent_eq]
    split
    · refine .call ?_ .refl
      rintro node text rfl
      cases ha
    · exact .refl

theorem eq_ok_of_mapError {ε ε' α : Type} {f : ε → ε'} {result : Except ε α} {a : α}
    (h : result.mapError f = .ok a) : result = .ok a := by
  cases result with
  | error e => cases h
  | ok a' => exact congrArg Except.ok (Except.ok.inj h)

/-- A property of sessions that all parts of an action keep, if only patches that are `allowed` are
set; those that are numbered are. -/
structure Kept (allowed : Patch → Prop) (P : Session → Prop) : Prop where
  numbered {patch : Patch} : patch.Numbered → allowed patch
  create (sampleRate : UInt32) : P (ofSampleRate sampleRate)
  setPatch {s s' : Session} {patch : Patch} : allowed patch → s.setPatch patch = .ok s' → P s'
  setExpression {s : Session} (node : NodeId) (text : String) :
    P s → P (s.setExpression node text).1
  flush {s : Session} : P s → P s.flush
  lend {s : Session} : P s → P { s with lent := true }
  call {s : Session} (c : Player.Call) : P s → P { s with player := (s.player.call c).2 }

namespace Kept

variable {allowed : Patch → Prop} {P : Session → Prop}

theorem passes (hP : Kept allowed P) (h : P s) (hs : s.Passes s') : P s' := by
  induction hs with
  | refl => exact h
  | flush _ ih => exact hP.flush ih
  | lend _ ih => exact hP.lend ih
  | call _ _ ih => exact hP.call _ ih

theorem ofReplacement (h : P s) {result : Except SessionError Session}
    (hresult : ∀ s', result = .ok s' → P s') : P (Response.ofReplacement s result).2 := by
  cases result with
  | error e => exact h
  | ok s' => exact hresult s' rfl

theorem act (hP : Kept allowed P) (h : P s) {a : Action}
    (ha : ∀ patch, a = .ask (.setPatch patch) → allowed patch) : P (s.act a).2 := by
  cases hkeeps : a.keepsPatch with
  | true =>
    rcases passes_act hkeeps s with ⟨node, text, rfl⟩ | hs
    · exact hP.setExpression node text h
    · exact hP.passes h hs
  | false =>
    cases a with
    | lent c =>
      simp only [Session.act, onLent_eq]
      split
      · exact hP.call c h
      · exact h
    | renderWav _ | lend => cases hkeeps
    | ask q =>
      cases q with
      | create sampleRate => exact hP.create sampleRate
      | createSingle text sampleRate =>
        have hsingle : ∀ s', ofExpression text sampleRate = .ok s' → P s' :=
          fun _ => hP.setPatch (hP.numbered (Patch.numbered_ofKinds _ _))
        simp only [Session.act, respond]
        exact ofReplacement h fun _ hset => hsingle _ (eq_ok_of_mapError hset)
      | setPatch patch =>
        exact ofReplacement h fun _ hset => hP.setPatch (ha patch rfl) (eq_ok_of_mapError hset)
      | loadPatch text =>
        simp only [Session.act, respond, loadPatch]
        cases hload : PatchFile.load text with
        | error e => exact h
        | ok patch =>
          have hpatch := hP.numbered (PatchFile.numbered_of_load hload)
          exact ofReplacement h fun _ hset => hP.setPatch hpatch (eq_ok_of_mapError hset)
      | setExpression _ _ | flush | startNote _ | sync _ | renderFrames _ => cases hkeeps

end Kept

/-! ## Every session is laid out -/

variable {l : Layout} {entry : NodeId → Entry}

def IsLaidOut (s : Session) : Prop := ∃ l entry, s.LaidOut l entry

theorem LaidOut.call (h : s.LaidOut l entry) (c : Player.Call) :
    { s with player := (s.player.call c).2 }.LaidOut (l.call c).2 entry := by
  rw [h.player, h.sound.call_player c]
  exact h.setPlayer (l.patch_call c) (l.order_call c)

theorem LaidOut.lend (h : s.LaidOut l entry) : { s with lent := true }.LaidOut l entry :=
  ⟨h.sound, h.player, h.entries, h.node, h.isVoice⟩

theorem IsLaidOut.compileNode (h : s.IsLaidOut) (id : NodeId) (text : String) :
    (s.compileNode id text).IsLaidOut := by
  obtain ⟨l, entry, hlaid⟩ := h
  cases hvoice : l.isVoice id with
  | false => exact ⟨l, entry, (hlaid.compileNode_of_not hvoice text).symm ▸ hlaid⟩
  | true =>
    cases hcompile : Program.compile text with
    | error e => exact ⟨_, _, (hlaid.compileNode_of_error hvoice hcompile).1⟩
    | ok p => exact ⟨_, _, (hlaid.compileNode_of_ok hvoice hcompile).1⟩

theorem isLaidOut_ofSampleRate (sampleRate : UInt32) : (ofSampleRate sampleRate).IsLaidOut := by
  have hvoices : (Layout.ofPatch .empty [] (Float.ofNat sampleRate.toNat)).voices = [] :=
    List.mergeSort_nil
  refine ⟨.ofPatch .empty [] (Float.ofNat sampleRate.toNat), fun node => { node }, ⟨rfl, rfl⟩, rfl,
    ?_, fun _ => rfl, fun _ => rfl⟩
  rw [hvoices]
  rfl

theorem isLaidOut_setPatch {p : Patch} (h : s.setPatch p = .ok s') : s'.IsLaidOut := by
  obtain ⟨order, hsound, rfl⟩ := eq_compileNodes_of_setPatch h
  have hfold : ∀ (edits : List (NodeId × String)) {s : Session}, s.IsLaidOut →
      (edits.foldl (fun s (node, text) => s.compileNode node text) s).IsLaidOut := by
    intro edits
    induction edits with
    | nil => exact fun h => h
    | cons edit edits ih => exact fun h => ih (h.compileNode edit.1 edit.2)
  exact hfold _ ⟨_, _, laidOut_ofPlayer hsound⟩

theorem IsLaidOut.setExpression (h : s.IsLaidOut) (node : NodeId) (text : String) :
    (s.setExpression node text).1.IsLaidOut := by
  rw [Session.setExpression]
  cases hset : s.patch.setExpression? node text with
  | none => exact h
  | some patch =>
    obtain ⟨l, entry, hlaid⟩ := h
    have hsame := Patch.isSome_expression?_of_setExpression? hset
    exact IsLaidOut.compileNode ⟨l, entry, hlaid.setTexts hsame⟩ node text

theorem kept_isLaidOut : Kept (fun _ => True) IsLaidOut where
  numbered _ := trivial
  create := isLaidOut_ofSampleRate
  setPatch _ := isLaidOut_setPatch
  setExpression node text h := h.setExpression node text
  flush := fun ⟨_, _, h⟩ => ⟨_, _, h.flush⟩
  lend := fun ⟨_, _, h⟩ => ⟨_, _, h.lend⟩
  call c := fun ⟨_, _, h⟩ => ⟨_, _, h.call c⟩

theorem IsLaidOut.acts (h : s.IsLaidOut) (actions : List Action) :
    (s.acts actions).2.IsLaidOut := by
  have hall : ∀ a ∈ actions, True := fun _ _ => trivial
  exact answers_keeps (P := IsLaidOut) (fun h _ => kept_isLaidOut.act h fun _ _ => trivial) hall h

/-- Whatever has been done to it, a session is laid out. -/
theorem exists_laidOut (sampleRate : UInt32) (actions : List Action) :
    ∃ l entry, ((ofSampleRate sampleRate).acts actions).2.LaidOut l entry :=
  (isLaidOut_ofSampleRate sampleRate).acts actions

end Session

end Bytebeat
