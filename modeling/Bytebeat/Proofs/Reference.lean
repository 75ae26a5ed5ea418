import Bytebeat.Proofs.Numbering
import Bytebeat.Proofs.Playing
import Bytebeat.Session

/-!
# Sessions without queues

The reference that a session is held against. It keeps, for each expression, the
text that compiled last since the patch was set and the state of the generator;
nothing waits on its way to the player, and every evaluation has a stack of its
own. Requests are answered by a session (`Session.respond`) and by a reference
(`Reference.respond`) alike, one or a row of them (`answers`).
-/

namespace Bytebeat

/-! ## Rows -/

section

variable {σ τ κ ρ : Type} {respond : σ → κ → ρ × σ} {respond' : τ → κ → ρ × τ}

/-- The answers to a row of questions, asked one after the other, and the state they leave. -/
def answers (respond : σ → κ → ρ × σ) : σ → List κ → List ρ × σ
  | s, [] => ([], s)
  | s, q :: qs =>
    let (a, s) := respond s q
    let (as, s) := answers respond s qs
    (a :: as, s)

theorem answers_append (s : σ) (qs qs' : List κ) :
    (answers respond s (qs ++ qs')).2 = (answers respond (answers respond s qs).2 qs').2 := by
  induction qs generalizing s with
  | nil => rfl
  | cons q qs ih => exact ih _

theorem answers_keeps {P : σ → Prop} {allowed : κ → Prop}
    (hkeeps : ∀ {s q}, P s → allowed q → P (respond s q).2) {qs : List κ}
    (hqs : ∀ q ∈ qs, allowed q) {s : σ} (h : P s) : P (answers respond s qs).2 := by
  induction qs generalizing s with
  | nil => exact h
  | cons q qs ih =>
    obtain ⟨hq, hqs⟩ := List.forall_mem_cons.1 hqs
    exact ih hqs (hkeeps h hq)

/-- States that answer every question alike, and are as alike afterwards, answer every row alike. -/
theorem answers_alike {R : σ → τ → Prop} {allowed : κ → Prop}
    (halike : ∀ {s t q}, R s t → allowed q →
      (respond s q).1 = (respond' t q).1 ∧ R (respond s q).2 (respond' t q).2)
    {qs : List κ} (hqs : ∀ q ∈ qs, allowed q) {s : σ} {t : τ} (h : R s t) :
    (answers respond s qs).1 = (answers respond' t qs).1 ∧
      R (answers respond s qs).2 (answers respond' t qs).2 := by
  induction qs generalizing s t with
  | nil => exact ⟨rfl, h⟩
  | cons q qs ih =>
    obtain ⟨hq, hqs⟩ := List.forall_mem_cons.1 hqs
    obtain ⟨hanswer, hnext⟩ := halike h hq
    obtain ⟨hanswers, hlast⟩ := ih hqs hnext
    exact ⟨congrArg₂ List.cons hanswer hanswers, hlast⟩

end

/-! ## Requests -/

/-- What can be asked of a session that keeps its player. -/
inductive Request where
  /-- Starts over with the empty patch. -/
  | create (sampleRate : UInt32)
  /-- Starts over with one expression. -/
  | createSingle (text : String) (sampleRate : UInt32)
  | setPatch (patch : Patch)
  | loadPatch (text : String)
  | setExpression (node : NodeId) (text : String)
  | flush
  | startNote (frequency : Float)
  | sync (t : Transport)
  | renderFrames (count : Nat)

inductive Response where
  | done
  | refused (e : SessionError)
  /-- Whether a text was taken over. -/
  | verdict (taken : Bool)
  | frames (fs : List Frame)

/-- The request was an edit or a replacement of the patch that failed. -/
def Response.isRefusal : Response → Bool
  | refused _ => true
  | verdict taken => !taken
  | done | frames _ => false

def Request.Numbered : Request → Prop
  | setPatch patch => patch.Numbered
  | _ => True

/-- The answer to a replacement: a failed one leaves the state as it was. -/
def Response.ofReplacement {σ : Type} (s : σ) : Except SessionError σ → Response × σ
  | .ok s' => (.done, s')
  | .error e => (.refused e, s)

def Session.respond (s : Session) : Request → Response × Session
  | .create sampleRate => (.done, .ofSampleRate sampleRate)
  | .createSingle text sampleRate =>
    Response.ofReplacement s ((Session.ofExpression text sampleRate).mapError .wiring)
  | .setPatch patch => Response.ofReplacement s ((s.setPatch patch).mapError .wiring)
  | .loadPatch text => Response.ofReplacement s (s.loadPatch text)
  | .setExpression node text =>
    let (s, taken) := s.setExpression node text
    (.verdict taken, s)
  | .flush => (.done, s.flush)
  | .startNote frequency => (.done, s.startNote frequency)
  | .sync t => (.done, s.sync t)
  | .renderFrames count =>
    let (fs, s) := s.renderFrames count
    (.frames fs.toList, s)

def Session.answered (s : Session) (qs : List Request) : List Response := (answers respond s qs).1

def Session.after (s : Session) (qs : List Request) : Session := (answers respond s qs).2

def Session.setExpressions (s : Session) (edits : List (NodeId × String)) : Session :=
  edits.foldl (fun s edit => (s.setExpression edit.1 edit.2).1) s

/-! ## The reference -/

def Program.compiles (text : String) : Bool := (compile text).toOption.isSome

structure Reference where
  patch : Patch := .empty
  sampleRate : UInt32
  order : List NodeId := []
  /-- For each expression the text that compiled last since the patch was set. -/
  texts : NodeId → Option String := fun _ => none
  generators : NodeId → Generator := fun id => .ofSeed (Voice.firstSeed + id.toUInt64)
  /-- The latest value of each node. -/
  values : Array Float := #[]
  clock : Clock

namespace Reference

def ofSampleRate (sampleRate : UInt32) : Reference where
  sampleRate
  clock := .ofSampleRate (Float.ofNat sampleRate.toNat)

/-- A reference that plays a patch before any text is taken over. -/
def ofPatch (p : Patch) (order : List NodeId) (sampleRate : UInt32) : Reference :=
  { ofSampleRate sampleRate with
    patch := p
    order
    values := .replicate p.nodes.size 0 }

/-- The program of a node: that of the text that compiled last, or the empty one. -/
def program (r : Reference) (id : NodeId) : Program :=
  ((r.texts id).bind fun text => (Program.compile text).toOption).getD .empty

/-- Replaces the patch, which starts to sound with those of its texts that compile. -/
def setPatch (r : Reference) (patch : Patch) : Except WiringError Reference := do
  patch.checkConnections
  let order ← patch.order
  return { ofPatch patch order r.sampleRate with
    texts := fun id => (patch.expression? id).filter Program.compiles }

def loadPatch (r : Reference) (text : String) : Except SessionError Reference :=
  match PatchFile.load text with
  | .error e => .error (.patchFile e)
  | .ok patch => (r.setPatch patch).mapError .wiring

/-- A text is taken over if it compiles and the node is an expression. -/
def takes (r : Reference) (id : NodeId) (text : String) : Bool :=
  (r.patch.expression? id).isSome && Program.compiles text

def setExpression (r : Reference) (id : NodeId) (text : String) : Reference :=
  if r.takes id text then { r with texts := Function.update r.texts id (some text) } else r

/-- Plays a node: an output is heard, an expression is evaluated. -/
def playNode (globals : Globals) (r : Reference) (m : Mix) (id : NodeId) : Reference × Mix :=
  match r.patch.output? id with
  | some stereo => (r, m.hearOutput r.patch id stereo)
  | none =>
    let result := (r.program id).evaluate { channels := m.channels r.patch id, globals }
      (r.generators id)
    ({ r with generators := Function.update r.generators id result.2 }, m.put id result.1)

def playAll (globals : Globals) : List NodeId → Reference → Mix → Reference × Mix
  | [], r, m => (r, m)
  | id :: ids, r, m => playAll globals ids (r.playNode globals m id).1 (r.playNode globals m id).2

def renderFrame (r : Reference) : Frame × Reference :=
  let played := playAll r.clock.globals r.order r { values := r.values }
  (.ofUnit played.2.left played.2.right,
    { played.1 with values := played.2.values, clock := r.clock.advance })

def renderFrames (r : Reference) : Nat → List Frame × Reference
  | 0 => ([], r)
  | count + 1 =>
    let (frame, r) := r.renderFrame
    let (frames, r) := r.renderFrames count
    (frame :: frames, r)

def respond (r : Reference) : Request → Response × Reference
  | .create sampleRate => (.done, ofSampleRate sampleRate)
  | .createSingle text sampleRate =>
    Response.ofReplacement r (((ofSampleRate sampleRate).setPatch (.single text)).mapError .wiring)
  | .setPatch patch => Response.ofReplacement r ((r.setPatch patch).mapError .wiring)
  | .loadPatch text => Response.ofReplacement r (r.loadPatch text)
  | .setExpression node text => (.verdict (r.takes node text), r.setExpression node text)
  | .flush => (.done, r)
  | .startNote frequency => (.done, { r with clock := r.clock.startNote frequency })
  | .sync t => (.done, { r with clock := r.clock.sync t })
  | .renderFrames count =>
    let (fs, r) := r.renderFrames count
    (.frames fs, r)

def answered (r : Reference) (qs : List Request) : List Response := (answers respond r qs).1

/-! ## What the reference is indifferent to -/

theorem respond_of_isRefusal {r : Reference} {q : Request} (h : (r.respond q).1.isRefusal = true) :
    (r.respond q).2 = r := by
  have hreplace : ∀ result : Except SessionError Reference,
      (Response.ofReplacement r result).1.isRefusal = true →
        (Response.ofReplacement r result).2 = r := by
    rintro (e | r') h
    · rfl
    · cases h
  cases q with
  | createSingle text sampleRate => exact hreplace _ h
  | setPatch patch => exact hreplace _ h
  | loadPatch text => exact hreplace _ h
  | setExpression node text =>
    rw [respond, Response.isRefusal, Bool.not_eq_true'] at h
    rw [respond, setExpression, h]
    rfl
  | create _ | flush | startNote _ | sync _ | renderFrames _ => cases h

theorem exists_renderFrames (r : Reference) (count : Nat) : ∃ generators values clock,
    (r.renderFrames count).2 = { r with generators, values, clock } := by
  have hplay : ∀ (globals : Globals) (ids : List NodeId) (r : Reference) (m : Mix),
      ∃ generators, (playAll globals ids r m).1 = { r with generators } := by
    intro globals ids
    induction ids with
    | nil => exact fun r _ => ⟨r.generators, rfl⟩
    | cons id ids ih =>
      intro r m
      obtain ⟨generators, h⟩ := ih (r.playNode globals m id).1 (r.playNode globals m id).2
      refine ⟨generators, h.trans ?_⟩
      rw [playNode]
      split <;> rfl
  induction count generalizing r with
  | zero => exact ⟨r.generators, r.values, r.clock, rfl⟩
  | succ count ih =>
    obtain ⟨generators, values, clock, h⟩ := ih r.renderFrame.2
    refine ⟨generators, values, clock, h.trans ?_⟩
    obtain ⟨_, hplayed⟩ := hplay r.clock.globals r.order r { values := r.values }
    simp only [renderFrame, hplayed]

theorem renderFrames_add (r : Reference) (n m : Nat) :
    r.renderFrames (n + m) =
      ((r.renderFrames n).1 ++ ((r.renderFrames n).2.renderFrames m).1,
        ((r.renderFrames n).2.renderFrames m).2) := by
  induction n generalizing r with
  | zero => rw [Nat.zero_add]; rfl
  | succ n ih => simp only [Nat.succ_add, renderFrames, ih, List.cons_append]

/-! ## Edits -/

def setExpressions (r : Reference) (edits : List (NodeId × String)) : Reference :=
  edits.foldl (fun r edit => r.setExpression edit.1 edit.2) r

/-- The last text for a node that compiles. -/
def latest (edits : List (NodeId × String)) (id : NodeId) : Option String :=
  (edits.reverse.find? fun edit => edit.1 == id && Program.compiles edit.2).map (·.2)

theorem latest_cons (edit : NodeId × String) (edits : List (NodeId × String)) (id : NodeId) :
    latest (edit :: edits) id =
      (latest edits id).or
        (if edit.1 = id ∧ Program.compiles edit.2 = true then some edit.2 else none) := by
  rw [latest, List.reverse_cons, List.find?_append, latest]
  cases edits.reverse.find? fun edit => edit.1 == id && Program.compiles edit.2 with
  | some found => rfl
  | none => by_cases h : edit.1 = id ∧ Program.compiles edit.2 = true <;> simp [h]

/-- Of several texts only the last that compiles is kept for each node. -/
theorem setExpressions_eq (r : Reference) (edits : List (NodeId × String)) :
    r.setExpressions edits =
      { r with texts := fun id =>
          if (r.patch.expression? id).isSome then (latest edits id).or (r.texts id)
          else r.texts id } := by
  induction edits generalizing r with
  | nil => simp [setExpressions, latest]
  | cons edit edits ih =>
    obtain ⟨node, text⟩ := edit
    rw [setExpressions, List.foldl_cons, ← setExpressions, ih]
    by_cases htakes : r.takes node text = true
    · obtain ⟨hvoice, hcompiles⟩ := Bool.and_eq_true_iff.1 htakes
      simp only [setExpression, htakes, if_true, Reference.mk.injEq, true_and, and_true]
      funext id
      by_cases hid : id = node
      · simp [hid, hvoice, hcompiles, latest_cons]
      · simp [hid, Ne.symm hid, latest_cons]
    · have hnot : ∀ id, (r.patch.expression? id).isSome = true →
          ¬(node = id ∧ Program.compiles text = true) := by
        rintro id hvoice ⟨rfl, hcompiles⟩
        exact htakes (Bool.and_eq_true_iff.2 ⟨hvoice, hcompiles⟩)
      have hstep : r.setExpression node text = r := if_neg htakes
      simp only [hstep, Reference.mk.injEq, true_and, and_true]
      funext id
      split
      · rename_i hvoice
        rw [latest_cons, if_neg (hnot id hvoice), Option.or_none]
      · rfl

theorem latest_expressions {p : Patch} (h : p.Numbered) (hsize : p.nodes.size ≤ UInt16.size)
    (id : NodeId) : latest p.expressions id = (p.expression? id).filter Program.compiles := by
  rw [latest]
  cases hfound : p.expressions.reverse.find? fun edit => edit.1 == id && Program.compiles edit.2 with
  | some edit =>
    obtain ⟨node, text⟩ := edit
    have hedit := List.find?_some hfound
    rw [Bool.and_eq_true, beq_iff_eq] at hedit
    obtain ⟨rfl, hcompiles⟩ := hedit
    have hmem := List.mem_reverse.1 (List.mem_of_find?_eq_some hfound)
    rw [(h.mem_expressions_iff hsize).1 hmem, Option.filter_some, if_pos hcompiles]
    rfl
  | none =>
    cases hid : p.expression? id with
    | none => rfl
    | some text =>
      have hmem := (h.mem_expressions_iff hsize).2 hid
      have hnot := List.find?_eq_none.1 hfound _ (List.mem_reverse.2 hmem)
      rw [beq_self_eq_true, Bool.true_and] at hnot
      rw [Option.filter_some, if_neg hnot]
      rfl

theorem setPatch_eq (r : Reference) {p : Patch} (h : p.Numbered) :
    r.setPatch p =
      (do
        p.checkConnections
        let order ← p.order
        return (ofPatch p order r.sampleRate).setExpressions p.expressions) := by
  unfold setPatch
  cases p.checkConnections with
  | error e => rfl
  | ok u =>
    cases hordered : p.order with
    | error e => rfl
    | ok order =>
      refine congrArg Except.ok ?_
      simp only [setExpressions_eq, latest_expressions h (Patch.size_le_of_order hordered), ofPatch,
        ofSampleRate, Reference.mk.injEq, true_and, and_true, Option.or_none]
      funext id
      cases p.expression? id <;> rfl

end Reference

end Bytebeat
