import Bytebeat.Proofs.Desk
import Bytebeat.Proofs.Meaning
import Bytebeat.Proofs.Reference

/-!
# Sessions refine the reference

A session that keeps its player follows a reference if each node has due what
the reference plays there, wherever the program is: installed, in the mailbox
or waiting at the entry (`Session.Follows`). Every request keeps this and is
answered as the reference answers it, so that a session gives the frames of one
without queues.
-/

namespace Bytebeat

namespace Reference

/-! ## Playing -/

/-- The nodes of a reference laid out, with mailboxes and evaluators for them. -/
def layout (r : Reference) (mailbox : NodeId → Mailbox) (evaluator : NodeId → Evaluator) :
    Layout where
  patch := r.patch
  order := r.order
  mailbox
  evaluator
  values := r.values
  clock := r.clock

theorem exists_compile (r : Reference) (id : NodeId) :
    ∃ text, Program.compile text = .ok (r.program id) := by
  rw [program]
  cases r.texts id with
  | none => exact ⟨"", Program.compile_empty⟩
  | some text =>
    cases h : Program.compile text with
    | error e => exact ⟨"", by rw [Program.compile_empty, Option.bind_some, h]; rfl⟩
    | ok p => exact ⟨text, by rw [h, Option.bind_some, h]; rfl⟩

/-- The newest programs of the mailboxes are those of the reference, and the evaluators draw the
same numbers. -/
structure Matches (r : Reference) (mailbox : NodeId → Mailbox) (evaluator : NodeId → Evaluator) :
    Prop where
  newest : ∀ id, (mailbox id).newest = r.program id
  random : ∀ id, (evaluator id).random = r.generators id
  room : ∀ id, 0 < (mailbox id).capacity

variable {r : Reference} {mailbox : NodeId → Mailbox} {evaluator : NodeId → Evaluator}
  {globals : Globals}

theorem Matches.playNode (h : r.Matches mailbox evaluator) (globals : Globals) (m : Mix)
    (id : NodeId) :
    ∃ mailbox' evaluator',
      (r.layout mailbox evaluator).playNode globals m id =
        ((r.playNode globals m id).1.layout mailbox' evaluator', (r.playNode globals m id).2) ∧
      (r.playNode globals m id).1.Matches mailbox' evaluator' := by
  cases hout : r.patch.output? id with
  | some stereo =>
    refine ⟨mailbox, evaluator, ?_⟩
    simp only [Layout.playNode, Reference.playNode, layout, hout]
    exact ⟨trivial, h⟩
  | none =>
    let inputs : Inputs := { channels := m.channels r.patch id, globals }
    obtain ⟨text, hcompile⟩ := r.exists_compile id
    obtain ⟨hvalue, hrandom⟩ := Evaluator.evaluate_eq_program hcompile (evaluator id) inputs
    rw [h.random id] at hvalue hrandom
    have hplay : r.playNode globals m id =
        ({ r with
            generators :=
              Function.update r.generators id ((r.program id).evaluate inputs (r.generators id)).2 },
          m.put id ((r.program id).evaluate inputs (r.generators id)).1) := by
      simp only [Reference.playNode, hout, inputs]
    refine ⟨Function.update mailbox id (mailbox id).refresh.1,
      Function.update evaluator id ((evaluator id).evaluate (r.program id) inputs).2, ?_, ?_⟩
    · rw [hplay, ← hvalue]
      simp only [Layout.playNode, layout, hout, h.newest id, inputs]
    · rw [hplay]
      refine ⟨?_, fun k => ?_, ?_⟩
      · refine (Function.forall_update_iff mailbox fun k m => m.newest = r.program k).2
          ⟨?_, fun k _ => h.newest k⟩
        rw [Mailbox.newest_refresh, h.newest]
      · by_cases hk : k = id
        · subst hk
          simp only [Function.update_self]
          exact hrandom
        · simp only [Function.update_of_ne hk]
          exact h.random k
      · exact Layout.room_update h.room (Mailbox.capacity_refresh _)

theorem Matches.playAll (globals : Globals) (ids : List NodeId) :
    ∀ {r : Reference} {mailbox : NodeId → Mailbox} {evaluator : NodeId → Evaluator},
      r.Matches mailbox evaluator → ∀ m : Mix, ∃ mailbox' evaluator',
        Layout.playAll globals ids (r.layout mailbox evaluator) m =
          ((playAll globals ids r m).1.layout mailbox' evaluator', (playAll globals ids r m).2) ∧
        (playAll globals ids r m).1.Matches mailbox' evaluator' := by
  induction ids with
  | nil => exact fun h m => ⟨_, _, rfl, h⟩
  | cons id ids ih =>
    intro r mailbox evaluator h m
    obtain ⟨mailbox₁, evaluator₁, hnode, h₁⟩ := h.playNode globals m id
    obtain ⟨mailbox₂, evaluator₂, hrest, h₂⟩ := ih h₁ (r.playNode globals m id).2
    refine ⟨mailbox₂, evaluator₂, ?_, h₂⟩
    rw [Layout.playAll, hnode, hrest, Reference.playAll]

theorem Matches.renderFrame (h : r.Matches mailbox evaluator) : ∃ mailbox' evaluator',
    (r.layout mailbox evaluator).renderFrame =
      (r.renderFrame.1, r.renderFrame.2.layout mailbox' evaluator') ∧
    r.renderFrame.2.Matches mailbox' evaluator' := by
  obtain ⟨mailbox', evaluator', hplayed, h'⟩ :=
    Matches.playAll r.clock.globals r.order h { values := r.values }
  refine ⟨mailbox', evaluator', ?_, ⟨h'.newest, h'.random, h'.room⟩⟩
  simp only [Layout.renderFrame, Reference.renderFrame]
  rw [show (r.layout mailbox evaluator).order = r.order from rfl,
    show (r.layout mailbox evaluator).clock = r.clock from rfl,
    show (r.layout mailbox evaluator).values = r.values from rfl, hplayed]
  rfl

theorem Matches.renderFrames (count : Nat) :
    ∀ {r : Reference} {mailbox : NodeId → Mailbox} {evaluator : NodeId → Evaluator},
      r.Matches mailbox evaluator → ∃ mailbox' evaluator',
        (r.layout mailbox evaluator).renderFrames count =
          ((r.renderFrames count).1, (r.renderFrames count).2.layout mailbox' evaluator') ∧
        (r.renderFrames count).2.Matches mailbox' evaluator' := by
  induction count with
  | zero => exact fun h => ⟨_, _, rfl, h⟩
  | succ count ih =>
    intro r mailbox evaluator h
    obtain ⟨mailbox₁, evaluator₁, hframe, h₁⟩ := h.renderFrame
    obtain ⟨mailbox₂, evaluator₂, hrest, h₂⟩ := ih h₁
    refine ⟨mailbox₂, evaluator₂, ?_, h₂⟩
    simp only [Layout.renderFrames, Reference.renderFrames, hframe, hrest]

theorem program_setExpression {id : NodeId} {text : String} {p : Program}
    (htakes : r.takes id text = true) (hp : Program.compile text = .ok p) (k : NodeId) :
    (r.setExpression id text).program k = if k = id then p else r.program k := by
  rw [setExpression, if_pos htakes]
  by_cases hk : k = id
  · simp [program, hk, hp, Except.toOption]
  · simp [program, hk]

end Reference

namespace Session

/-! ## Following the reference -/

/-- The session keeps its player and has due at each node what the reference plays there. -/
structure Follows (s : Session) (r : Reference) (mailbox : NodeId → Mailbox)
    (evaluator : NodeId → Evaluator) (entry : NodeId → Entry) : Prop where
  laidOut : s.LaidOut (r.layout mailbox evaluator) entry
  owned : s.lent = false
  sampleRate : s.sampleRate = r.sampleRate
  due : ∀ id, (entry id).due (mailbox id) = r.program id
  random : ∀ id, (evaluator id).random = r.generators id
  room : ∀ id, 0 < (mailbox id).capacity

/-- The session follows the reference, wherever the programs are. -/
def Refines (s : Session) (r : Reference) : Prop :=
  ∃ mailbox evaluator entry, s.Follows r mailbox evaluator entry

variable {s : Session} {r : Reference}

/-! ## Texts -/

theorem Refines.compileNode (h : s.Refines r) (id : NodeId) (text : String) :
    (s.compileNode id text).Refines (r.setExpression id text) ∧
      ((r.patch.expression? id).isSome = true →
        (s.compileNode id text).isValid id = r.takes id text) := by
  obtain ⟨mailbox, evaluator, entry, h⟩ := h
  cases hvoice : (r.patch.expression? id).isSome with
  | false =>
    have htakes : r.takes id text = false := by rw [Reference.takes, hvoice, Bool.false_and]
    rw [h.laidOut.compileNode_of_not hvoice, Reference.setExpression, htakes]
    exact ⟨⟨_, _, _, h⟩, fun hfalse => absurd hfalse Bool.false_ne_true⟩
  | true =>
    have hlent := (s.lent_compileNode id text).trans h.owned
    have hrate := (s.sampleRate_compileNode id text).trans h.sampleRate
    cases hcompile : Program.compile text with
    | error e =>
      have htakes : r.takes id text = false := by
        rw [Reference.takes, Program.compiles, hcompile, hvoice]
        rfl
      obtain ⟨hlaid, hvalid⟩ := h.laidOut.compileNode_of_error hvoice hcompile
      have hr : r.setExpression id text = r := by rw [Reference.setExpression, htakes]; rfl
      rw [hr, htakes, hvalid]
      refine ⟨⟨mailbox, evaluator, _, hlaid, hlent, hrate, ?_, h.random, h.room⟩, fun _ => rfl⟩
      exact (Function.forall_update_iff entry fun k e => e.due (mailbox k) = r.program k).2
        ⟨h.due id, fun k _ => h.due k⟩
    | ok p =>
      have htakes : r.takes id text = true := by
        rw [Reference.takes, Program.compiles, hcompile, hvoice]
        rfl
      obtain ⟨hlaid, hvalid⟩ := h.laidOut.compileNode_of_ok hvoice hcompile
      have hprogram := Reference.program_setExpression htakes hcompile
      rw [Reference.setExpression, if_pos htakes] at hprogram ⊢
      rw [htakes, hvalid]
      refine ⟨⟨_, evaluator, _, hlaid, hlent, hrate, fun k => ?_, h.random, ?_⟩, fun _ => rfl⟩
      · rw [hprogram]
        by_cases hk : k = id
        · subst hk
          rw [Function.update_self, Function.update_self, if_pos rfl]
          exact Entry.due_publishTo _ _ _
        · rw [Function.update_of_ne hk, Function.update_of_ne hk, if_neg hk]
          exact h.due k
      · exact Layout.room_update h.room (Mailbox.capacity_publish _ _)

theorem Refines.setExpression (h : s.Refines r) (id : NodeId) (text : String) :
    (s.setExpression id text).1.Refines (r.setExpression id text) ∧
      (s.setExpression id text).2 = r.takes id text := by
  obtain ⟨mailbox, evaluator, entry, hf⟩ := h
  have hvoice : (s.patch.expression? id).isSome = (r.patch.expression? id).isSome :=
    hf.laidOut.isVoice id
  unfold Session.setExpression
  cases hset : s.patch.setExpression? id text with
  | none =>
    rw [Patch.setExpression?_eq_none_iff, hvoice] at hset
    have htakes : r.takes id text = false := by rw [Reference.takes, hset, Bool.false_and]
    rw [Reference.setExpression, htakes]
    exact ⟨⟨_, _, _, hf⟩, rfl⟩
  | some patch =>
    have hsame := Patch.isSome_expression?_of_setExpression? hset
    have hpatch : { s with patch }.Refines r :=
      ⟨mailbox, evaluator, entry, hf.laidOut.setTexts hsame, hf.owned, hf.sampleRate, hf.due,
        hf.random, hf.room⟩
    obtain ⟨hrefines, hvalid⟩ := hpatch.compileNode id text
    refine ⟨hrefines, hvalid ?_⟩
    rw [← hvoice, ← Bool.not_eq_false]
    intro hnone
    exact absurd (Patch.setExpression?_eq_none_iff.2 hnone) (hset ▸ Option.some_ne_none _)

/-! ## Patches -/

theorem Refines.compileNodes (edits : List (NodeId × String)) :
    ∀ {s : Session} {r : Reference}, s.Refines r →
      (edits.foldl (fun s (node, text) => s.compileNode node text) s).Refines
        (r.setExpressions edits) := by
  induction edits with
  | nil => exact fun h => h
  | cons edit edits ih => exact fun h => ih (h.compileNode edit.1 edit.2).1

theorem refines_ofPatch {p : Patch} (hwired : p.checkConnections = .ok ()) {order : List NodeId}
    (hordered : p.order = .ok order) (sampleRate : UInt32) :
    (ofPlayer p sampleRate
      (Layout.ofPatch p order (Float.ofNat sampleRate.toNat)).player).Refines
      (Reference.ofPatch p order sampleRate) := by
  have hsound : (Layout.ofPatch p order (Float.ofNat sampleRate.toNat)).Sound := ⟨hwired, hordered⟩
  have hroom := Layout.capacity_ofPatch p order (Float.ofNat sampleRate.toNat)
  exact ⟨_, _, _, laidOut_ofPlayer hsound, rfl, rfl, fun _ => rfl, fun _ => rfl, hroom⟩

theorem refines_ofSampleRate (sampleRate : UInt32) :
    (ofSampleRate sampleRate).Refines (.ofSampleRate sampleRate) := by
  have h := refines_ofPatch (p := .empty) rfl (show Patch.order .empty = .ok [] from rfl) sampleRate
  rwa [ofPlayer, Player.voices, show (Layout.ofPatch .empty [] _).player.stages = [] from rfl,
    List.filterMap_nil, List.mergeSort_nil] at h

/-- Two replacements fail for the same reason, or give a session that follows a reference. -/
inductive Alike {ε : Type} : Except ε Session → Except ε Reference → Prop where
  | error (e : ε) : Alike (.error e) (.error e)
  | ok {s : Session} {r : Reference} : s.Refines r → Alike (.ok s) (.ok r)

theorem Alike.mapError {ε ε' : Type} {x : Except ε Session} {y : Except ε Reference}
    (h : Alike x y) (f : ε → ε') : Alike (x.mapError f) (y.mapError f) := by
  cases h with
  | error e => exact .error _
  | ok h => exact .ok h

theorem Refines.setPatch (h : s.Refines r) {p : Patch} (hp : p.Numbered) :
    Alike (s.setPatch p) (r.setPatch p) := by
  obtain ⟨mailbox, evaluator, entry, h⟩ := h
  rw [Session.setPatch, r.setPatch_eq hp, Layout.player_ofPatch, h.sampleRate]
  cases hwired : p.checkConnections with
  | error e => exact .error e
  | ok u =>
    cases hordered : p.order with
    | error e => exact .error e
    | ok order =>
      refine .ok (Refines.compileNodes p.expressions ?_)
      exact refines_ofPatch hwired hordered r.sampleRate

theorem Refines.loadPatch (h : s.Refines r) (text : String) :
    Alike (s.loadPatch text) (r.loadPatch text) := by
  unfold Session.loadPatch Reference.loadPatch
  cases hload : PatchFile.load text with
  | error e => exact .error _
  | ok p => exact (h.setPatch (PatchFile.numbered_of_load hload)).mapError _

theorem Refines.ofReplacement (h : s.Refines r) {x : Except SessionError Session}
    {y : Except SessionError Reference} (hxy : Alike x y) :
    (Response.ofReplacement s x).1 = (Response.ofReplacement r y).1 ∧
      (Response.ofReplacement s x).2.Refines (Response.ofReplacement r y).2 := by
  cases hxy with
  | error e => exact ⟨rfl, h⟩
  | ok h' => exact ⟨rfl, h'⟩

/-! ## Flushing and rendering -/

/-- After a flush no program waits at an entry, since every mailbox has been refreshed. -/
theorem Refines.flush (h : s.Refines r) : ∃ mailbox evaluator entry,
    s.flush.Follows r mailbox evaluator entry ∧ ∀ id, (entry id).waiting = none := by
  obtain ⟨mailbox, evaluator, entry, h⟩ := h
  have hflushed : ∀ id, s.flushed (r.layout mailbox evaluator) id = (mailbox id).refresh.1 := by
    intro id
    rw [flushed, h.owned]
    rfl
  have hlaid := h.laidOut.flush
  simp only [hflushed] at hlaid
  refine ⟨_, evaluator, _, ⟨hlaid, h.owned, h.sampleRate, fun id => ?_, h.random, fun id => ?_⟩,
    fun id => Entry.waiting_flushTo (h.room id) (entry id)⟩
  · rw [Entry.due_flushTo, Entry.due, Mailbox.newest_refresh]
    exact h.due id
  · rw [Entry.capacity_flushTo, Mailbox.capacity_refresh]
    exact h.room id

theorem Refines.renderFrames (h : s.Refines r) (count : Nat) :
    (s.renderFrames count).1.toList = (r.renderFrames count).1 ∧
      (s.renderFrames count).2.Refines (r.renderFrames count).2 := by
  obtain ⟨mailbox, evaluator, entry, hf, hnone⟩ := h.flush
  -- Since nothing waits at an entry, what is due is the newest in the mailbox.
  have hdue : ∀ (m : Mailbox) (id : NodeId), (entry id).due m = m.newest := by
    intro m id
    rw [Entry.due, hnone]
    rfl
  have hm : r.Matches mailbox evaluator :=
    ⟨fun id => (hdue _ id).symm.trans (hf.due id), hf.random, hf.room⟩
  obtain ⟨mailbox', evaluator', hframes, hm'⟩ := hm.renderFrames count
  have hs : s.renderFrames count =
      ((r.renderFrames count).1.toArray,
        { s.flush with
          player := ((r.renderFrames count).2.layout mailbox' evaluator').player }) := by
    simp only [Session.renderFrames, hf.owned, hf.laidOut.player,
      hf.laidOut.sound.renderFrames_player, hframes]
    rfl
  obtain ⟨generators, values, clock, hr⟩ := r.exists_renderFrames count
  rw [hs]
  refine ⟨rfl, mailbox', evaluator', entry, hf.laidOut.setPlayer (by rw [hr]; rfl) (by rw [hr]; rfl),
    hf.owned, ?_, fun id => (hdue _ id).trans (hm'.newest id), hm'.random, hm'.room⟩
  rw [hr]
  exact hf.sampleRate

/-! ## Requests -/

theorem Refines.setClock (h : s.Refines r) (change : Clock → Clock) :
    { s with player := { s.player with clock := change s.player.clock } }.Refines
      { r with clock := change r.clock } := by
  obtain ⟨mailbox, evaluator, entry, h⟩ := h
  refine ⟨mailbox, evaluator, entry, ?_, h.owned, h.sampleRate, h.due, h.random, h.room⟩
  rw [h.laidOut.player]
  have hpatch : ({ r with clock := change r.clock }.layout mailbox evaluator).patch = r.patch := rfl
  exact h.laidOut.setPlayer hpatch rfl

/-- A request is answered as the reference answers it, and leaves a session that follows what the
reference becomes. -/
theorem Refines.respond (h : s.Refines r) {q : Request} (hq : q.Numbered) :
    (s.respond q).1 = (r.respond q).1 ∧ (s.respond q).2.Refines (r.respond q).2 := by
  have howned : ¬s.lent = true := by
    obtain ⟨_, _, _, hf⟩ := h
    rw [hf.owned]
    exact Bool.false_ne_true
  cases q with
  | create sampleRate => exact ⟨rfl, refines_ofSampleRate sampleRate⟩
  | createSingle text sampleRate =>
    exact h.ofReplacement
      (((refines_ofSampleRate sampleRate).setPatch (Patch.numbered_ofKinds _ _)).mapError _)
  | setPatch patch => exact h.ofReplacement ((h.setPatch hq).mapError _)
  | loadPatch text => exact h.ofReplacement (h.loadPatch text)
  | setExpression node text =>
    obtain ⟨hrefines, htaken⟩ := h.setExpression node text
    exact ⟨congrArg Response.verdict htaken, hrefines⟩
  | flush =>
    obtain ⟨mailbox, evaluator, entry, hf, -⟩ := h.flush
    exact ⟨rfl, mailbox, evaluator, entry, hf⟩
  | startNote frequency =>
    refine ⟨rfl, ?_⟩
    rw [Session.respond, Session.startNote, if_neg howned]
    exact h.setClock (·.startNote frequency)
  | sync t =>
    refine ⟨rfl, ?_⟩
    rw [Session.respond, Session.sync, if_neg howned]
    exact h.setClock (·.sync t)
  | renderFrames count =>
    obtain ⟨hframes, hrefines⟩ := h.renderFrames count
    exact ⟨congrArg Response.frames hframes, hrefines⟩

theorem Refines.answers {qs : List Request} (hqs : ∀ q ∈ qs, q.Numbered) (h : s.Refines r) :
    s.answered qs = r.answered qs ∧ (s.after qs).Refines (answers Reference.respond r qs).2 :=
  answers_alike (fun h hq => h.respond hq) hqs h

theorem Refines.answered_eq {s' : Session} (h : s.Refines r) (h' : s'.Refines r)
    {qs : List Request} (hqs : ∀ q ∈ qs, q.Numbered) : s.answered qs = s'.answered qs :=
  (Refines.answers hqs h).1.trans (Refines.answers hqs h').1.symm

theorem Refines.setExpressions (edits : List (NodeId × String)) :
    ∀ {s : Session} {r : Reference}, s.Refines r →
      (s.setExpressions edits).Refines (r.setExpressions edits) := by
  induction edits with
  | nil => exact fun h => h
  | cons edit edits ih => exact fun h => ih (h.setExpression edit.1 edit.2).1

/-- **A session is answered as one without queues**, whatever it is asked in whatever order. From
each state that it comes to, flushing once more and requests that fail change none of the later
answers; edits change them by the last text of each node that compiles alone; and frames may be
rendered in one go or in two. -/
theorem answered_eq_reference (sampleRate : UInt32) {qs : List Request}
    (hqs : ∀ q ∈ qs, q.Numbered) :
    (ofSampleRate sampleRate).answered qs = (Reference.ofSampleRate sampleRate).answered qs ∧
      let s := (ofSampleRate sampleRate).after qs
      ∀ later : List Request, (∀ q ∈ later, q.Numbered) →
        s.flush.answered later = s.answered later ∧
        (∀ q : Request, q.Numbered → (s.respond q).1.isRefusal = true →
          (s.respond q).2.answered later = s.answered later) ∧
        (∀ edits edits' : List (NodeId × String),
          (∀ id, Reference.latest edits id = Reference.latest edits' id) →
            (s.setExpressions edits).answered later = (s.setExpressions edits').answered later) ∧
        ∀ n m : Nat,
          (s.renderFrames (n + m)).1 =
            (s.renderFrames n).1 ++ ((s.renderFrames n).2.renderFrames m).1 ∧
          (s.renderFrames (n + m)).2.answered later =
            ((s.renderFrames n).2.renderFrames m).2.answered later := by
  obtain ⟨hanswers, h⟩ := Refines.answers hqs (refines_ofSampleRate sampleRate)
  refine ⟨hanswers, ?_⟩
  intro s later hlater
  refine ⟨?_, fun q hq hrefused => ?_, fun edits edits' hlatest => ?_, fun n m => ?_⟩
  · obtain ⟨mailbox, evaluator, entry, hf, -⟩ := h.flush
    exact Refines.answered_eq ⟨mailbox, evaluator, entry, hf⟩ h hlater
  · obtain ⟨hanswer, h'⟩ := h.respond hq
    rw [hanswer] at hrefused
    rw [Reference.respond_of_isRefusal hrefused] at h'
    exact h'.answered_eq h hlater
  · have hedits := Refines.setExpressions edits h
    have hedits' := Refines.setExpressions edits' h
    rw [Reference.setExpressions_eq] at hedits hedits'
    simp only [hlatest] at hedits
    exact hedits.answered_eq hedits' hlater
  · obtain ⟨hsum, hsum'⟩ := h.renderFrames (n + m)
    obtain ⟨hn, hn'⟩ := h.renderFrames n
    obtain ⟨hm, hm'⟩ := hn'.renderFrames m
    rw [Reference.renderFrames_add] at hsum hsum'
    refine ⟨?_, hsum'.answered_eq hm' hlater⟩
    rw [← Array.toList_inj, Array.toList_append, hsum, hn, hm]

/-- More edits than a mailbox holds, and after them a patch that is refused and an edit that is
edited again. -/
theorem answered_eq_reference_overflowing :
    let qs := [Request.setPatch (.single "t")] ++
      List.replicate 6 (.setExpression 0 "rand") ++ [.setExpression 0 "t*2", .renderFrames 2]
    let s := (ofSampleRate 8000).after qs
    (∀ q ∈ qs, q.Numbered) ∧
      (ofSampleRate 8000).answered qs = (Reference.ofSampleRate 8000).answered qs ∧
      (s.respond (.setPatch { connections := [⟨0, 0, 0⟩] })).2.answered [.renderFrames 3] =
        s.answered [.renderFrames 3] ∧
      (s.setExpressions [(0, "1"), (0, "t")]).answered [.renderFrames 3] =
        (s.setExpressions [(0, "t")]).answered [.renderFrames 3] := by
  intro qs s
  have hqs : ∀ q ∈ qs, q.Numbered := by
    simp only [qs, List.mem_append, List.mem_replicate, List.mem_cons,
      List.not_mem_nil, or_false]
    rintro q ((rfl | ⟨-, rfl⟩) | rfl | rfl)
    · exact Patch.numbered_ofKinds _ _
    all_goals trivial
  obtain ⟨hanswers, hlater⟩ := answered_eq_reference 8000 hqs
  obtain ⟨-, hrefused, hedits, -⟩ := hlater [.renderFrames 3] (by simp [Request.Numbered])
  refine ⟨hqs, hanswers, hrefused _ ?_ rfl, hedits _ _ fun id => ?_⟩
  · exact fun i hi => absurd hi (Nat.not_lt_zero i)
  · have hcompiles : Program.compiles "t" = true := by decide +kernel
    rw [Reference.latest_cons]
    by_cases hid : 0 = id <;> simp [Reference.latest, hid, hcompiles]

end Session

end Bytebeat
