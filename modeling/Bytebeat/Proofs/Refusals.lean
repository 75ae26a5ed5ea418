import Bytebeat.Proofs.Actions
import Bytebeat.Proofs.Verdicts

/-!
# Refusals are not heard

A replacement of the patch is a row of assignments (`Session.assignPatch`), none
of which has been made when it fails. A text that does not compile changes that
text and the verdict on it (`Session.rejected`). Two sessions that differ in
texts and verdicts at most (`Session.SoundsAs`) answer every action alike and do
so from then on, so that after a refusal every later frame is the one that would
have been rendered without it (`Session.refusals_unheard`).
-/

namespace Bytebeat

def Patch.withText (p : Patch) (id : NodeId) (text : String) : Patch :=
  { p with nodes := p.nodes.modify id.toNat fun n => { n with kind := .expression text } }

theorem Patch.setExpression?_eq_withText {p : Patch} {id : NodeId}
    (h : (p.expression? id).isSome = true) (text : String) :
    p.setExpression? id text = some (p.withText id text) := by
  obtain ⟨old, hold⟩ := Option.isSome_iff_exists.1 h
  obtain ⟨own, hnode⟩ := expression?_eq_some_iff.1 hold
  rw [setExpression?, hnode, withText]
  refine congrArg (fun nodes => some { p with nodes }) (Array.ext_getElem? fun i => ?_)
  obtain ⟨hlt, hget⟩ := Array.getElem?_eq_some_iff.1 hnode
  rw [Array.getElem?_modify, Array.getElem?_setIfInBounds, if_pos hlt]
  by_cases hi : id.toNat = i
  · rw [if_pos hi, if_pos hi, ← hi, Array.getElem?_eq_getElem hlt, hget]
    rfl
  · rw [if_neg hi, if_neg hi]

theorem Patch.isSome_expression?_withText {p : Patch} {id : NodeId}
    (h : (p.expression? id).isSome = true) (text : String) (k : NodeId) :
    ((p.withText id text).expression? k).isSome = (p.expression? k).isSome :=
  isSome_expression?_of_setExpression? (setExpression?_eq_withText h text) k

/-! ## Entries but for their verdicts -/

namespace Entry

/-- The entry as if its text had compiled. -/
def unjudged (e : Entry) : Entry := { e with isValid := true, error := none }

theorem flush_unjudged (e : Entry) (player : Player) :
    e.unjudged.flush player = ((e.flush player).1.unjudged, (e.flush player).2) := by
  have hwaiting : e.unjudged.waiting = e.waiting := rfl
  rw [flush, flush, hwaiting]
  cases e.waiting <;> rfl

theorem flushAll_unjudged (es : List Entry) (player : Player) :
    flushAll (es.map unjudged) player =
      ((flushAll es player).1.map unjudged, (flushAll es player).2) := by
  induction es generalizing player with
  | nil => rfl
  | cons e es ih => simp only [List.map_cons, flushAll, flush_unjudged, ih]

theorem compile_unjudged (e : Entry) (text : String) (player : Player) :
    e.unjudged.compile text player = e.compile text player := by
  rw [compile, compile]
  cases Program.compile text <;> rfl

theorem find?_unjudged (es : List Entry) (id : NodeId) :
    (es.map unjudged).find? (·.node == id) = (es.find? (·.node == id)).map unjudged :=
  List.find?_map

end Entry

namespace Session

variable {s s' s'' : Session} {l : Layout} {entry : NodeId → Entry}

/-! ## Replacing the patch by assignments -/

/-- Adopts a patch and its player, one assignment after the other, and compiles its texts. -/
def assignPlayer (patch : Patch) (player : Player) :
    ExceptT SessionError (StateM Session) Unit := do
  modify fun s => { s with entries := player.voices.map fun node => { node } }
  modify fun s => { s with player, lent := false }
  modify fun s => { s with patch }
  (← get).patch.expressions.forM fun (node, text) => modify fun s => s.compileNode node text

/-- Replaces the patch. Where a step fails, what has been assigned before it stays. -/
def assignPatch (patch : Patch) : ExceptT SessionError (StateM Session) Unit := do
  match Player.ofPatch patch (Float.ofNat (← get).sampleRate.toNat) with
  | .error e => throw (.wiring e)
  | .ok player => assignPlayer patch player

def assignLoaded (text : String) : ExceptT SessionError (StateM Session) Unit := do
  match PatchFile.load text with
  | .error e => throw (.patchFile e)
  | .ok patch => assignPatch patch

/-- What a replacement leaves: its result if it succeeds, else the session that it started from. -/
def replacedBy (s : Session) : Except SessionError Session → Except SessionError Unit × Session
  | .ok s' => (.ok (), s')
  | .error e => (.error e, s)

theorem run_compileNodes (edits : List (NodeId × String)) (s : Session) :
    (edits.forM (m := ExceptT SessionError (StateM Session)) fun (node, text) =>
        modify fun s => s.compileNode node text).run.run s =
      (.ok (), edits.foldl (fun s (node, text) => s.compileNode node text) s) := by
  induction edits generalizing s with
  | nil => rfl
  | cons edit edits ih => exact ih _

/-- Nothing is assigned before the steps that can fail. -/
theorem run_assignPatch (patch : Patch) (s : Session) :
    (assignPatch patch).run.run s = s.replacedBy ((s.setPatch patch).mapError .wiring) := by
  have hrun : (assignPatch patch).run.run s =
      (match Player.ofPatch patch (Float.ofNat s.sampleRate.toNat) with
        | .error e => throw (.wiring e)
        | .ok player => assignPlayer patch player :
          ExceptT SessionError (StateM Session) Unit).run.run s := rfl
  rw [hrun, setPatch]
  cases Player.ofPatch patch (Float.ofNat s.sampleRate.toNat) with
  | error e => rfl
  | ok player => exact run_compileNodes _ _

theorem run_assignLoaded (text : String) (s : Session) :
    (assignLoaded text).run.run s = s.replacedBy (s.loadPatch text) := by
  rw [assignLoaded, loadPatch]
  cases PatchFile.load text with
  | error e => rfl
  | ok patch => exact run_assignPatch patch s

/-! ## Setting a text -/

theorem setExpression_of_isSome {node : NodeId} (hnode : (s.patch.expression? node).isSome = true)
    (text : String) :
    s.setExpression node text =
      let placed := { s with patch := s.patch.withText node text }.compileNode node text
      (placed, placed.isValid node) := by
  rw [setExpression, Patch.setExpression?_eq_withText hnode]

theorem setExpression_of_not {node : NodeId} (hnode : (s.patch.expression? node).isSome = false)
    (text : String) : s.setExpression node text = (s, false) := by
  rw [setExpression, Patch.setExpression?_eq_none_iff.2 hnode]

/-! ## Sessions that differ in texts and verdicts -/

/-- The sessions have the same player, and the same programs wait for the same nodes. They may
differ in the texts of expressions and in the verdicts on them. -/
structure SoundsAs (s s' : Session) : Prop where
  isExpression : ∀ id, (s'.patch.expression? id).isSome = (s.patch.expression? id).isSome
  sampleRate : s'.sampleRate = s.sampleRate
  player : s'.player = s.player
  lent : s'.lent = s.lent
  entries : s'.entries.map Entry.unjudged = s.entries.map Entry.unjudged

theorem SoundsAs.refl (s : Session) : s.SoundsAs s := ⟨fun _ => rfl, rfl, rfl, rfl, rfl⟩

theorem SoundsAs.change (h : s.SoundsAs s') (change : Player → Player) :
    { s with player := change s.player }.SoundsAs { s' with player := change s'.player } :=
  ⟨h.isExpression, h.sampleRate, congrArg change h.player, h.lent, h.entries⟩

theorem SoundsAs.ite (h : s.SoundsAs s') {own own' lent lent' : Session}
    (hlent : lent.SoundsAs lent') (hown : own.SoundsAs own') :
    (if s.lent then lent else own).SoundsAs (if s'.lent then lent' else own') := by
  rw [h.lent]
  split
  · exact hlent
  · exact hown

theorem SoundsAs.find?_entries (h : s.SoundsAs s') (id : NodeId) :
    (s'.entries.find? (·.node == id)).map Entry.unjudged =
      (s.entries.find? (·.node == id)).map Entry.unjudged := by
  rw [← Entry.find?_unjudged, ← Entry.find?_unjudged, h.entries]

theorem SoundsAs.compileNode (h : s.SoundsAs s') (id : NodeId) (text : String) :
    (s.compileNode id text).SoundsAs (s'.compileNode id text) := by
  have hfind := h.find?_entries id
  rw [Session.compileNode, Session.compileNode]
  cases hs : s.entries.find? (·.node == id) with
  | none =>
    rw [hs, Option.map_none, Option.map_eq_none_iff] at hfind
    rw [hfind]
    exact h
  | some e =>
    rw [hs, Option.map_some, Option.map_eq_some_iff] at hfind
    obtain ⟨e', hs', he⟩ := hfind
    have hcompile : e'.compile text s'.player = e.compile text s.player := by
      rw [← Entry.compile_unjudged, he, Entry.compile_unjudged, h.player]
    have hreplace : ∀ es : List Entry, ∀ placed : Entry,
        (es.map fun old : Entry => if old.node == id then placed else old).map Entry.unjudged =
          (es.map Entry.unjudged).map fun old : Entry =>
            if old.node == id then placed.unjudged else old := by
      intro es placed
      rw [List.map_map, List.map_map]
      refine List.map_congr_left fun old _ => ?_
      rw [Function.comp_apply, Function.comp_apply, apply_ite Entry.unjudged]
      rfl
    rw [hs']
    refine ⟨h.isExpression, h.sampleRate, ?_, h.lent, ?_⟩
    · simp only [hcompile]
    · simp only [hcompile, hreplace, h.entries]

theorem SoundsAs.isValid_compileNode (h : s.SoundsAs s') (id : NodeId) (text : String) :
    (s'.compileNode id text).isValid id = (s.compileNode id text).isValid id := by
  have hverdict : (s'.verdict? id).map (fun _ => Program.verdict text) =
      (s.verdict? id).map fun _ => Program.verdict text := by
    simpa only [verdict?, entry?, Option.map_map, Function.comp_def] using
      congrArg (Option.map fun _ => Program.verdict text) (h.find?_entries id)
  rw [isValid_eq_verdict?, isValid_eq_verdict?, verdict?_compileNode, verdict?_compileNode,
    if_pos rfl, if_pos rfl, hverdict]

theorem SoundsAs.flush (h : s.SoundsAs s') : s.flush.SoundsAs s'.flush := by
  have hflush : ∀ player, ((Entry.flushAll s'.entries player).1.map Entry.unjudged,
      (Entry.flushAll s'.entries player).2) =
        ((Entry.flushAll s.entries player).1.map Entry.unjudged,
          (Entry.flushAll s.entries player).2) := fun player => by
    rw [← Entry.flushAll_unjudged, ← Entry.flushAll_unjudged, h.entries]
  have hplayer : (if s'.lent then s'.player else s'.player.refresh) =
      if s.lent then s.player else s.player.refresh := by rw [h.lent, h.player]
  obtain ⟨hentries, hplayers⟩ :=
    Prod.mk.inj (hflush (if s.lent then s.player else s.player.refresh))
  simp only [Session.flush, hplayer]
  exact ⟨h.isExpression, h.sampleRate, hplayers, h.lent, hentries⟩

theorem SoundsAs.renderFrames (h : s.SoundsAs s') (count : Nat) :
    (s'.renderFrames count).1 = (s.renderFrames count).1 ∧
      (s.renderFrames count).2.SoundsAs (s'.renderFrames count).2 := by
  have hflush := h.flush
  rw [Session.renderFrames, Session.renderFrames]
  by_cases hlent : s.flush.lent = true
  · rw [if_pos hlent, if_pos (hflush.lent.trans hlent)]
    exact ⟨rfl, hflush⟩
  · rw [if_neg hlent, if_neg (hflush.lent ▸ hlent)]
    exact ⟨congrArg (fun player => (player.renderFrames count).1) hflush.player,
      hflush.change fun player => (player.renderFrames count).2⟩

theorem SoundsAs.renderWav (h : s.SoundsAs s') (seconds : Float) :
    (s'.renderWav seconds).1 = (s.renderWav seconds).1 ∧
      (s.renderWav seconds).2.SoundsAs (s'.renderWav seconds).2 := by
  have hcount : Float.ofNat s'.sampleRate.toNat * seconds =
      Float.ofNat s.sampleRate.toNat * seconds := by rw [h.sampleRate]
  simp only [Session.renderWav, hcount]
  split
  · obtain ⟨hframes, hsame⟩ :=
      h.renderFrames (Float.ofNat s.sampleRate.toNat * seconds).toUInt64.toNat
    exact ⟨by rw [hframes, hsame.sampleRate], hsame⟩
  · exact ⟨rfl, h⟩

theorem SoundsAs.startNote (h : s.SoundsAs s') (frequency : Float) :
    (s.startNote frequency).SoundsAs (s'.startNote frequency) :=
  h.ite h (h.change (·.startNote frequency))

theorem SoundsAs.sync (h : s.SoundsAs s') (t : Transport) : (s.sync t).SoundsAs (s'.sync t) :=
  h.ite h (h.change (·.sync t))

theorem SoundsAs.setExpression (h : s.SoundsAs s') (node : NodeId) (text : String) :
    (s'.setExpression node text).2 = (s.setExpression node text).2 ∧
      (s.setExpression node text).1.SoundsAs (s'.setExpression node text).1 := by
  cases hnode : (s.patch.expression? node).isSome with
  | false =>
    rw [setExpression_of_not hnode, setExpression_of_not ((h.isExpression node).trans hnode)]
    exact ⟨rfl, h⟩
  | true =>
    have hnode' := (h.isExpression node).trans hnode
    have htexts : { s with patch := s.patch.withText node text }.SoundsAs
        { s' with patch := s'.patch.withText node text } := by
      refine ⟨fun id => ?_, h.sampleRate, h.player, h.lent, h.entries⟩
      rw [Patch.isSome_expression?_withText hnode', Patch.isSome_expression?_withText hnode,
        h.isExpression]
    rw [setExpression_of_isSome hnode, setExpression_of_isSome hnode']
    exact ⟨htexts.isValid_compileNode node text, htexts.compileNode node text⟩

theorem SoundsAs.setPatch (h : s.SoundsAs s') (patch : Patch) :
    s'.setPatch patch = s.setPatch patch := by
  rw [Session.setPatch, Session.setPatch, h.sampleRate]

theorem SoundsAs.ofReplacement (h : s.SoundsAs s') (result : Except SessionError Session) :
    (Response.ofReplacement s' result).1 = (Response.ofReplacement s result).1 ∧
      (Response.ofReplacement s result).2.SoundsAs (Response.ofReplacement s' result).2 := by
  cases result with
  | error e => exact ⟨rfl, h⟩
  | ok fresh => exact ⟨rfl, .refl fresh⟩

theorem SoundsAs.respond (h : s.SoundsAs s') (q : Request) :
    (s'.respond q).1 = (s.respond q).1 ∧ (s.respond q).2.SoundsAs (s'.respond q).2 := by
  cases q with
  | create sampleRate => exact ⟨rfl, .refl _⟩
  | createSingle text sampleRate => exact h.ofReplacement _
  | setPatch patch =>
    simp only [Session.respond, h.setPatch]
    exact h.ofReplacement _
  | loadPatch text =>
    simp only [Session.respond, Session.loadPatch, h.setPatch]
    exact h.ofReplacement _
  | setExpression node text =>
    obtain ⟨htaken, hsame⟩ := h.setExpression node text
    exact ⟨congrArg Response.verdict htaken, hsame⟩
  | flush => exact ⟨rfl, h.flush⟩
  | startNote frequency => exact ⟨rfl, h.startNote frequency⟩
  | sync t => exact ⟨rfl, h.sync t⟩
  | renderFrames count =>
    obtain ⟨hframes, hsame⟩ := h.renderFrames count
    exact ⟨congrArg (fun fs : Array Frame => Response.frames fs.toList) hframes, hsame⟩

theorem SoundsAs.lentPlayer? (h : s.SoundsAs s') : s'.lentPlayer? = s.lentPlayer? := by
  rw [Session.lentPlayer?, Session.lentPlayer?, h.lent, h.player]

theorem SoundsAs.act (h : s.SoundsAs s') (a : Action) :
    (s'.act a).1 = (s.act a).1 ∧ (s.act a).2.SoundsAs (s'.act a).2 := by
  cases a with
  | ask q =>
    obtain ⟨hresponse, hsame⟩ := h.respond q
    exact ⟨congrArg Answer.response hresponse, hsame⟩
  | renderWav seconds =>
    obtain ⟨hfile, hsame⟩ := h.renderWav seconds
    exact ⟨congrArg Answer.file hfile, hsame⟩
  | lend =>
    have hflush := h.flush
    have hlent : s.lend.1.SoundsAs s'.lend.1 :=
      ⟨hflush.isExpression, hflush.sampleRate, hflush.player, rfl, hflush.entries⟩
    have hgiven : s'.lend.2 = s.lend.2 := congrArg not hflush.lent
    refine ⟨?_, hlent⟩
    simp only [Session.act, hgiven, hlent.lentPlayer?]
  | lent c =>
    refine ⟨?_, ?_⟩
    · simp only [Session.act, h.lentPlayer?]
    · simp only [Session.act, onLent_eq]
      exact h.ite (h.change fun player => (player.call c).2) h

theorem SoundsAs.acts (h : s.SoundsAs s') (actions : List Action) :
    (s'.acts actions).1 = (s.acts actions).1 ∧ (s.acts actions).2.SoundsAs (s'.acts actions).2 := by
  have hall : ∀ a ∈ actions, True := fun _ _ => trivial
  exact answers_alike (R := fun s' s => SoundsAs s s') (@fun _ _ a h _ => h.act a) hall h

/-! ## Texts that do not compile -/

/-- The session with a text for an expression that is rejected with `e`. -/
def rejected (s : Session) (node : NodeId) (text : String) (e : CompileError) : Session :=
  { s with
    patch := s.patch.withText node text
    entries := s.entries.map fun old =>
      if old.node = node then { old with isValid := false, error := some e } else old }

theorem soundsAs_rejected (s : Session) {node : NodeId}
    (hnode : (s.patch.expression? node).isSome = true) (text : String) (e : CompileError) :
    s.SoundsAs (s.rejected node text e) := by
  refine ⟨?_, rfl, rfl, rfl, ?_⟩
  · exact Patch.isSome_expression?_withText hnode text
  · simp only [rejected, List.map_map]
    refine List.map_congr_left fun old _ => ?_
    rw [Function.comp_apply]
    split <;> rfl

/-- A text that does not compile is kept with the verdict on it, and that is all. -/
theorem LaidOut.setExpression_of_error (h : s.LaidOut l entry) {node : NodeId}
    (hnode : (s.patch.expression? node).isSome = true) {text : String} {e : CompileError}
    (he : Program.compile text = .error e) :
    s.setExpression node text = (s.rejected node text e, false) := by
  have hvoice : l.isVoice node = true := h.isVoice node ▸ hnode
  have hlaid := h.setTexts (Patch.isSome_expression?_withText hnode text)
  have hentries : (s.entries.map fun old : Entry =>
      if old.node == node then { entry node with isValid := false, error := some e } else old) =
        (s.rejected node text e).entries := by
    simp only [rejected, h.entries, List.map_map]
    refine List.map_congr_left fun k _ => ?_
    by_cases hk : k = node <;> simp [h.node, hk]
  have hcompile : { s with patch := s.patch.withText node text }.compileNode node text =
      s.rejected node text e := by
    rw [compileNode, hlaid.find?_entries, if_pos hvoice]
    simp only [Entry.compile, he, hentries]
    rfl
  have hinvalid := (hlaid.compileNode_of_error hvoice he).2
  rw [hcompile] at hinvalid
  simp only [setExpression_of_isSome hnode, hcompile, hinvalid]

theorem LaidOut.setExpression_of_ok (h : s.LaidOut l entry) {node : NodeId}
    (hnode : (s.patch.expression? node).isSome = true) {text : String} {p : Program}
    (hp : Program.compile text = .ok p) : (s.setExpression node text).2 = true := by
  have hvoice : l.isVoice node = true := h.isVoice node ▸ hnode
  have hlaid := h.setTexts (Patch.isSome_expression?_withText hnode text)
  rw [setExpression_of_isSome hnode]
  exact (hlaid.compileNode_of_ok hvoice hp).2

/-- **A refusal is not heard.** In every session that can be reached, a patch that cannot replace
the present one leaves everything as it was, and so does a text for a node that is no expression. A
text that does not compile changes that text and the verdict on it alone; every later answer, and
with it every frame rendered by the session or by the player lent out, is the one without that
edit. An edit is refused for one of these two reasons. -/
theorem refusals_unheard (sampleRate : UInt32) (before : List Action) :
    let s := ((ofSampleRate sampleRate).acts before).2
    (∀ patch e, s.setPatch patch = .error e →
      s.respond (.setPatch patch) = (.refused (.wiring e), s) ∧
        (assignPatch patch).run.run s = (.error (.wiring e), s)) ∧
    (∀ text e, s.loadPatch text = .error e →
      s.respond (.loadPatch text) = (.refused e, s) ∧
        (assignLoaded text).run.run s = (.error e, s)) ∧
    (∀ node text, s.patch.expression? node = none → s.setExpression node text = (s, false)) ∧
    (∀ node text e, (s.patch.expression? node).isSome = true → Program.compile text = .error e →
      s.setExpression node text = (s.rejected node text e, false) ∧
        ∀ later, ((s.rejected node text e).acts later).1 = (s.acts later).1 ∧
          (s.acts later).2.SoundsAs ((s.rejected node text e).acts later).2) ∧
    ∀ node text, (s.setExpression node text).2 = false →
      s.patch.expression? node = none ∨ ∃ e, Program.compile text = .error e := by
  intro s
  obtain ⟨l, entry, hlaid⟩ : s.IsLaidOut := exists_laidOut sampleRate before
  refine ⟨fun patch e he => ?_, fun text e he => ?_, fun node text hnode => ?_,
    fun node text e hnode he => ?_, fun node text hfalse => ?_⟩
  · rw [respond, run_assignPatch, he]
    exact ⟨rfl, rfl⟩
  · rw [respond, run_assignLoaded, he]
    exact ⟨rfl, rfl⟩
  · exact setExpression_of_not (by rw [hnode]; rfl) text
  · exact ⟨hlaid.setExpression_of_error hnode he, (soundsAs_rejected s hnode text e).acts⟩
  · cases hnode : s.patch.expression? node with
    | none => exact .inl rfl
    | some old =>
      cases hcompile : Program.compile text with
      | error e => exact .inr ⟨e, rfl⟩
      | ok p =>
        rw [hlaid.setExpression_of_ok (hnode ▸ rfl) hcompile] at hfalse
        cases hfalse

/-- A player lent out with a full queue and a program that waits: a loop, a file of another version,
a text for an output and a text that ends too early. -/
theorem refusals_unheard_overflowing :
    let p := Patch.ofKinds [.expression "t", .expression "rand", .output false]
      [⟨0, 1, 0⟩, ⟨1, 2, 0⟩]
    let loop := Patch.ofKinds [.expression "a"] [⟨0, 0, 0⟩]
    let e := CompileError.grammatical (.missingOperand 1)
    let s := ((ofSampleRate 8000).acts (.ask (.setPatch p) :: .lend ::
      List.replicate 6 (.ask (.setExpression 0 "t*2")))).2
    (s.lent = true ∧ (s.player.mailbox? 0).map Mailbox.pending = some Mailbox.defaultCapacity ∧
      (s.entry? 0).any (·.waiting.isSome) = true) ∧
    s.respond (.setPatch loop) = (.refused (.wiring .cycle), s) ∧
    s.respond (.loadPatch "version = 2") = (.refused (.patchFile (.unsupportedVersion 2)), s) ∧
    s.setExpression 2 "a" = (s, false) ∧
    s.setExpression 0 "t+" = (s.rejected 0 "t+" e, false) ∧
    ∀ later, ((s.rejected 0 "t+" e).acts later).1 = (s.acts later).1 := by
  intro p loop e s
  have hsound : (Layout.ofPatch p [0, 1, 2]
      (Float.ofNat (ofSampleRate 8000).sampleRate.toNat)).Sound :=
    ⟨by decide +kernel, by decide +kernel⟩
  -- The session evaluates once its entries are listed.
  obtain ⟨s₀, hset, hfacts⟩ : ∃ s₀, (ofSampleRate 8000).setPatch p = .ok s₀ ∧
      let s := (s₀.acts (.lend :: List.replicate 6 (.ask (.setExpression 0 "t*2")))).2
      (s.lent = true ∧ (s.player.mailbox? 0).map Mailbox.pending = some Mailbox.defaultCapacity ∧
        (s.entry? 0).any (·.waiting.isSome) = true) ∧
        (s.patch.expression? 0).isSome = true ∧ s.patch.expression? 2 = none := by
    have hids : [0, 1, 2].filter (fun id => (p.expression? id).isSome) = [0, 1] := by decide
    exact ⟨_, setPatch_eq_ok hsound hids (by decide), by decide +kernel⟩
  have hall := refusals_unheard 8000 (.ask (.setPatch p) :: .lend ::
    List.replicate 6 (.ask (.setExpression 0 "t*2")))
  have hs : s = (s₀.acts (.lend :: List.replicate 6 (.ask (.setExpression 0 "t*2")))).2 :=
    acts_setPatch hset _
  rw [acts_setPatch hset] at hall
  clear_value s
  rw [← hs] at hall hfacts
  obtain ⟨hfull, hnode, hnone⟩ := hfacts
  obtain ⟨hpatch, hfile, hother, hedit, -⟩ := hall
  have hloop : s.setPatch loop = .error .cycle := by
    have hplayer : ∀ rate, Player.ofPatch loop rate = .error .cycle := fun _ => rfl
    rw [setPatch, hplayer]
    rfl
  have hload : s.loadPatch "version = 2" = .error (.patchFile (.unsupportedVersion 2)) := by
    have hversion : PatchFile.load "version = 2" = .error (.unsupportedVersion 2) := by
      decide +kernel
    rw [loadPatch, hversion]
  obtain ⟨hrejected, hlater⟩ := hedit 0 "t+" e hnode (by decide +kernel)
  exact ⟨hfull, (hpatch loop _ hloop).1, (hfile _ _ hload).1, hother 2 "a" hnone, hrejected,
    fun later => (hlater later).1⟩

end Session

end Bytebeat
