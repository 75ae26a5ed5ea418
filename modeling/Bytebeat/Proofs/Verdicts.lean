import Bytebeat.Proofs.Actions

/-!
# The verdicts of a session are those of its texts

The texts of a session are in its patch, and what compiling them gave is in its
entries. Both are changed in several ways: all texts are compiled when the patch
is replaced, one when it is set, and a flush goes through the entries. The
verdict on a node is always the one on the text in the patch
(`Session.Judged`): every action keeps this, whether it succeeds or fails, so
that it holds of every session that can be reached (`Session.verdicts_agree`).
-/

namespace Bytebeat

abbrev Verdict := Bool × Option CompileError

def Program.verdict (text : String) : Verdict :=
  match compile text with
  | .ok _ => (true, none)
  | .error e => (false, some e)

def Entry.verdict (e : Entry) : Verdict := (e.isValid, e.error)

theorem Program.verdict_fst_iff {text : String} :
    (verdict text).1 = true ↔ ∃ p, compile text = .ok p := by
  rw [verdict]
  cases compile text <;> simp

theorem Program.verdict_snd_iff {text : String} {e : CompileError} :
    (verdict text).2 = some e ↔ compile text = .error e := by
  rw [verdict]
  cases compile text <;> simp

/-! ## The text of an edited patch -/

theorem Patch.expression?_of_setExpression? {p p' : Patch} {id : NodeId} {text : String}
    (h : p.setExpression? id text = some p') (k : NodeId) :
    p'.expression? k = if k = id then some text else p.expression? k := by
  unfold setExpression? at h
  split at h
  · rename_i own old hnode
    cases h
    by_cases hk : k = id
    · subst hk
      obtain ⟨hlt, -⟩ := Array.getElem?_eq_some_iff.1 hnode
      simp [expression?, node?, hlt]
    · have hne : id.toNat ≠ k.toNat := fun heq => hk (UInt16.toNat_inj.1 heq.symm)
      simp [expression?, node?, Array.getElem?_setIfInBounds_ne hne, hk]
  · cases h

theorem Patch.isSome_of_setExpression? {p p' : Patch} {id : NodeId} {text : String}
    (h : p.setExpression? id text = some p') : (p.expression? id).isSome = true := by
  rw [← isSome_expression?_of_setExpression? h, expression?_of_setExpression? h, if_pos rfl]
  rfl

/-! ## Entries -/

namespace Entry

theorem node_compile (e : Entry) (text : String) (player : Player) :
    (e.compile text player).1.node = e.node := by
  rw [compile]
  split <;> rfl

theorem verdict_compile (e : Entry) (text : String) (player : Player) :
    (e.compile text player).1.verdict = Program.verdict text := by
  rw [compile, Program.verdict]
  cases Program.compile text <;> rfl

theorem node_flush (e : Entry) (player : Player) : (e.flush player).1.node = e.node := by
  rw [flush]
  split <;> rfl

theorem verdict_flush (e : Entry) (player : Player) :
    (e.flush player).1.verdict = e.verdict := by
  rw [flush]
  split <;> rfl

theorem verdict_flushAll (es : List Entry) (player : Player) (node : NodeId) :
    ((flushAll es player).1.find? (·.node == node)).map verdict =
      (es.find? (·.node == node)).map verdict := by
  induction es generalizing player with
  | nil => rfl
  | cons e es ih =>
    rw [flushAll, List.find?_cons, List.find?_cons, node_flush]
    cases e.node == node with
    | true => exact congrArg some (e.verdict_flush player)
    | false => exact ih (e.flush player).2

theorem find?_replace (es : List Entry) (e : Entry) (k : NodeId) :
    (es.map fun old : Entry => if old.node == e.node then e else old).find? (·.node == k) =
      (es.find? (·.node == k)).map fun old => if k = e.node then e else old := by
  have hsame : ((·.node == k) ∘ fun old : Entry => if old.node == e.node then e else old) =
      (·.node == k) := by
    funext old
    by_cases hold : old.node = e.node <;> simp [hold]
  rw [List.find?_map, hsame]
  refine Option.map_congr fun old hold => ?_
  have hnode := List.find?_some hold
  rw [beq_iff_eq] at hnode
  simp only [hnode, beq_iff_eq]

end Entry

namespace Session

variable {s : Session} {node : NodeId}

def verdict? (s : Session) (node : NodeId) : Option Verdict := (s.entry? node).map Entry.verdict

theorem isValid_eq_verdict? (s : Session) (node : NodeId) :
    s.isValid node = (s.verdict? node).any (·.1) := by
  rw [isValid, verdict?]
  cases s.entry? node <;> rfl

theorem compileError?_eq_verdict? (s : Session) (node : NodeId) :
    s.compileError? node = (s.verdict? node).bind (·.2) := by
  rw [compileError?, verdict?]
  cases s.entry? node <;> rfl

/-- The verdicts are those on the texts in the patch. -/
def Judged (s : Session) : Prop :=
  ∀ node, s.verdict? node = (s.patch.expression? node).map Program.verdict

/-! ## Compiling -/

theorem patch_compileNode (s : Session) (node : NodeId) (text : String) :
    (s.compileNode node text).patch = s.patch := by
  unfold compileNode
  split <;> rfl

theorem patch_compileNodes (edits : List (NodeId × String)) (s : Session) :
    (edits.foldl (fun s (node, text) => s.compileNode node text) s).patch = s.patch := by
  induction edits generalizing s with
  | nil => rfl
  | cons edit edits ih => exact (ih _).trans (s.patch_compileNode edit.1 edit.2)

theorem patch_setExpression (s : Session) (node : NodeId) (text : String) :
    (s.setExpression node text).1.patch = (s.patch.setExpression? node text).getD s.patch := by
  rw [setExpression]
  cases s.patch.setExpression? node text with
  | none => rfl
  | some patch => exact patch_compileNode _ _ _

theorem verdict?_compileNode (s : Session) (node : NodeId) (text : String) (k : NodeId) :
    (s.compileNode node text).verdict? k =
      if k = node then (s.verdict? k).map fun _ => Program.verdict text else s.verdict? k := by
  cases hfind : s.entry? node with
  | none =>
    have hfind' : s.entries.find? (·.node == node) = none := hfind
    have hs : s.compileNode node text = s := by rw [compileNode, hfind']
    rw [hs]
    split
    · rename_i hk
      rw [verdict?, hk, hfind]
      rfl
    · rfl
  | some e =>
    have hnode := List.find?_some hfind
    rw [beq_iff_eq] at hnode
    have hs : entry? (s.compileNode node text) k =
        (s.entry? k).map fun old => if k = node then (e.compile text s.player).1 else old := by
      have hreplace := Entry.find?_replace s.entries (e.compile text s.player).1 k
      rw [e.node_compile, hnode] at hreplace
      have hfind' : s.entries.find? (·.node == node) = some e := hfind
      rw [compileNode, hfind']
      exact hreplace
    rw [verdict?, verdict?, hs, Option.map_map]
    by_cases hk : k = node
    · simp only [if_pos hk, Option.map_map, Function.comp_def, e.verdict_compile]
    · simp only [if_neg hk, Function.comp_def]

/-- Each text of a list is compiled, and each is the one text for its node. -/
theorem verdict?_compileNodes {texts : NodeId → Option String} (edits : List (NodeId × String))
    (hedits : ∀ edit ∈ edits, texts edit.1 = some edit.2) :
    ∀ {s : Session}, (∀ k, (s.verdict? k).isSome = (texts k).isSome) → ∀ k,
      (edits.foldl (fun s (node, text) => s.compileNode node text) s).verdict? k =
        if k ∈ edits.map Prod.fst then (texts k).map Program.verdict else s.verdict? k := by
  induction edits with
  | nil => exact fun _ k => (if_neg List.not_mem_nil).symm
  | cons edit edits ih =>
    obtain ⟨node, text⟩ := edit
    intro s hs k
    have htext : texts node = some text := hedits _ List.mem_cons_self
    have hstep := s.verdict?_compileNode node text
    have hs' : ∀ k, ((s.compileNode node text).verdict? k).isSome = (texts k).isSome := by
      intro k
      rw [hstep k, ← hs k]
      split
      · exact Option.isSome_map
      · rfl
    rw [List.foldl_cons, ih (fun edit h => hedits edit (List.mem_cons_of_mem _ h)) hs', hstep k]
    by_cases hk : k = node
    · subst hk
      obtain ⟨v, hv⟩ := Option.isSome_iff_exists.1 ((hs k).trans (congrArg Option.isSome htext))
      simp [htext, hv]
    · have hmem : k ∈ ((node, text) :: edits).map Prod.fst ↔ k ∈ edits.map Prod.fst :=
        List.mem_cons.trans (or_iff_right hk)
      simp only [hmem, if_neg hk]

theorem judged_compileNodes (hp : s.patch.Numbered) (hsize : s.patch.nodes.size ≤ UInt16.size)
    (hs : ∀ k, (s.verdict? k).isSome = (s.patch.expression? k).isSome) :
    (s.patch.expressions.foldl (fun s (node, text) => s.compileNode node text) s).Judged := by
  intro k
  have hmem : ∀ node text, (node, text) ∈ s.patch.expressions ↔
      s.patch.expression? node = some text := fun _ _ => hp.mem_expressions_iff hsize
  rw [verdict?_compileNodes s.patch.expressions (fun edit hedit => (hmem _ _).1 hedit) hs,
    patch_compileNodes]
  split
  · rfl
  · rename_i hk
    cases htext : s.patch.expression? k with
    | some text => exact absurd (List.mem_map_of_mem ((hmem k text).2 htext)) hk
    | none =>
      have hnone := hs k
      rw [htext, Option.isSome_none, Option.isSome_eq_false_iff, Option.isNone_iff_eq_none] at hnone
      exact hnone

/-! ## Actions -/

theorem judged_ofSampleRate (sampleRate : UInt32) : (ofSampleRate sampleRate).Judged := by
  intro node
  rfl

theorem isSome_verdict?_ofPlayer {p : Patch} {order : List NodeId} {rate : Float}
    {sampleRate : UInt32} (hsound : (Layout.ofPatch p order rate).Sound) (k : NodeId) :
    ((ofPlayer p sampleRate (Layout.ofPatch p order rate).player).verdict? k).isSome =
      (p.expression? k).isSome := by
  have hlaid : (ofPlayer p sampleRate (Layout.ofPatch p order rate).player).LaidOut _ _ :=
    laidOut_ofPlayer hsound
  have hvoice : (p.expression? k).isSome = (Layout.ofPatch p order rate).isVoice k :=
    hlaid.isVoice k
  rw [verdict?, entry?, hlaid.find?_entries, hvoice, Option.isSome_map]
  cases (Layout.ofPatch p order rate).isVoice k <;> rfl

theorem patch_setPatch {s' : Session} {p : Patch} (h : s.setPatch p = .ok s') : s'.patch = p := by
  obtain ⟨order, -, rfl⟩ := eq_compileNodes_of_setPatch h
  exact patch_compileNodes _ _

theorem judged_setPatch {s' : Session} {p : Patch} (hp : p.Numbered) (h : s.setPatch p = .ok s') :
    s'.Judged := by
  obtain ⟨order, hsound, rfl⟩ := eq_compileNodes_of_setPatch h
  exact judged_compileNodes (s := ofPlayer p s.sampleRate _) hp
    (Patch.size_le_of_order hsound.ordered) (isSome_verdict?_ofPlayer hsound)

theorem Judged.setExpression (h : s.Judged) (node : NodeId) (text : String) :
    (s.setExpression node text).1.Judged := by
  rw [Session.setExpression]
  cases hset : s.patch.setExpression? node text with
  | none => exact h
  | some patch =>
    intro k
    have hold : { s with patch }.verdict? k = (s.patch.expression? k).map Program.verdict := h k
    rw [verdict?_compileNode, patch_compileNode, hold, Patch.expression?_of_setExpression? hset]
    by_cases hk : k = node
    · subst hk
      obtain ⟨old, hold⟩ := Option.isSome_iff_exists.1 (Patch.isSome_of_setExpression? hset)
      rw [if_pos rfl, if_pos rfl, hold]
      rfl
    · rw [if_neg hk, if_neg hk]

theorem Judged.flush (h : s.Judged) : s.flush.Judged := fun node =>
  (Entry.verdict_flushAll _ _ node).trans (h node)

theorem kept_judged : Kept Patch.Numbered Judged where
  numbered h := h
  create := judged_ofSampleRate
  setPatch := judged_setPatch
  setExpression node text h := h.setExpression node text
  flush h := h.flush
  -- Neither the player nor whether it is lent out matters to the verdicts.
  lend h := h
  call _ h := h

/-! ## Sessions that can be reached -/

/-- A session that has been created and then asked anything, where the patches that it was given are
numbered; the player may be lent out and played on meanwhile. -/
inductive Reached : Session → Prop where
  | create (sampleRate : UInt32) : Reached (ofSampleRate sampleRate)
  | act {s : Session} (h : Reached s) {a : Action} (ha : a.Numbered) : Reached (s.act a).2

theorem Reached.judged (h : s.Reached) : s.Judged := by
  induction h with
  | create sampleRate => exact judged_ofSampleRate sampleRate
  | act _ ha ih =>
    refine kept_judged.act ih ?_
    rintro patch rfl
    exact ha

theorem Judged.isValid_iff (h : s.Judged) (k : NodeId) :
    s.isValid k = true ↔
      ∃ text p, s.patch.expression? k = some text ∧ Program.compile text = .ok p := by
  rw [isValid_eq_verdict?, h k, Option.any_map]
  cases s.patch.expression? k with
  | none => simp
  | some text => simp [Program.verdict_fst_iff]

theorem Judged.compileError?_iff (h : s.Judged) (k : NodeId) (e : CompileError) :
    s.compileError? k = some e ↔
      ∃ text, s.patch.expression? k = some text ∧ Program.compile text = .error e := by
  rw [compileError?_eq_verdict?, h k]
  cases s.patch.expression? k with
  | none => simp
  | some text => simp [Program.verdict_snd_iff]

theorem Judged.taken_iff (h : s.Judged) (node : NodeId) (text : String) :
    let (s', taken) := s.setExpression node text
    (taken = true ↔ s'.isValid node = true ∧ (s'.patch.expression? node).isSome = true) ∧
      (taken = true ↔
        (s.patch.expression? node).isSome = true ∧ ∃ p, Program.compile text = .ok p) := by
  have hnext := h.setExpression node text
  rw [Session.setExpression] at hnext ⊢
  cases hset : s.patch.setExpression? node text with
  | none =>
    have hnot := Patch.setExpression?_eq_none_iff.1 hset
    simp [hnot]
  | some patch =>
    rw [hset] at hnext
    have htext : ({ s with patch }.compileNode node text).patch.expression? node = some text := by
      rw [patch_compileNode, Patch.expression?_of_setExpression? hset, if_pos rfl]
    have hvalid := hnext.isValid_iff node
    simp only [htext, Option.some.injEq, exists_and_left, exists_eq_left'] at hvalid
    refine ⟨?_, ?_⟩
    · simp only [htext, Option.isSome_some, and_true]
    · simp only [Patch.isSome_of_setExpression? hset, true_and]
      exact hvalid

/-- **The verdicts of a session are always those of the texts in its patch**, however the session
has been reached. A node is valid if it is an expression whose text compiles, and the error kept
for it is the one that its text gives. A text that is set is taken over exactly if the node is
an expression and valid afterwards, which is when the text compiles. -/
theorem verdicts_agree {s : Session} (h : s.Reached) :
    (∀ k, s.isValid k = true ↔
      ∃ text p, s.patch.expression? k = some text ∧ Program.compile text = .ok p) ∧
    (∀ k e, s.compileError? k = some e ↔
      ∃ text, s.patch.expression? k = some text ∧ Program.compile text = .error e) ∧
    ∀ node text,
      let (s', taken) := s.setExpression node text
      (taken = true ↔ s'.isValid node = true ∧ (s'.patch.expression? node).isSome = true) ∧
      (taken = true ↔
        (s.patch.expression? node).isSome = true ∧ ∃ p, Program.compile text = .ok p) := by
  have hjudged := h.judged
  exact ⟨hjudged.isValid_iff, hjudged.compileError?_iff, hjudged.taken_iff⟩

/-- A session whose player is lent out before a text is set that does not compile. -/
theorem verdicts_agree_lent :
    let p := Patch.ofKinds [.expression "t", .expression "1 +", .output false] [⟨0, 2, 0⟩]
    ∃ s₀, (ofSampleRate 8000).setPatch p = .ok s₀ ∧
      let s := (s₀.acts [.lend, .ask (.setExpression 0 "t)")]).2
      s.Reached ∧ s.patch.expression? 0 = some "t)" ∧ s.isValid 0 = false ∧
        s.compileError? 1 = some (.grammatical (.missingOperand 1)) ∧
        (s.setExpression 0 "a").2 = true := by
  intro p
  have hsound : (Layout.ofPatch p [0, 2, 1] (Float.ofNat (8000 : UInt32).toNat)).Sound :=
    ⟨by decide +kernel, by decide +kernel⟩
  have hplayer := Player.ofPatch_eq_ok_iff_sound.2 ⟨_, hsound, rfl⟩
  obtain ⟨s₀, hset⟩ : ∃ s₀, (ofSampleRate 8000).setPatch p = .ok s₀ := by
    rw [setPatch, show (ofSampleRate 8000).sampleRate = 8000 from rfl, hplayer]
    exact ⟨_, rfl⟩
  have hpatch : (s₀.acts [.lend, .ask (.setExpression 0 "t)")]).2.patch =
      (p.setExpression? 0 "t)").getD p := by
    have hacts : (s₀.acts [.lend, .ask (.setExpression 0 "t)")]).2 =
        (s₀.lend.1.setExpression 0 "t)").1 := rfl
    rw [hacts, patch_setExpression, ← patch_setPatch hset]
    rfl
  have hreached₀ : s₀.Reached := by
    have hact : ((ofSampleRate 8000).act (.ask (.setPatch p))).2 = s₀ := by
      rw [act, respond, hset]
      rfl
    exact hact ▸ (Reached.create 8000).act (Patch.numbered_ofKinds _ _)
  have hreached : (s₀.acts [.lend, .ask (.setExpression 0 "t)")]).2.Reached := by
    have hlend : Action.lend.Numbered := trivial
    have hedit : (Action.ask (.setExpression 0 "t)")).Numbered := trivial
    exact (hreached₀.act hlend).act hedit
  obtain ⟨hvalid, herror, htaken⟩ := verdicts_agree hreached
  rw [hpatch] at herror htaken
  have htext : ((p.setExpression? 0 "t)").getD p).expression? 0 = some "t)" := by decide +kernel
  refine ⟨s₀, hset, hreached, hpatch ▸ htext, ?_, ?_, ?_⟩
  · rw [← Bool.not_eq_true, hvalid 0, hpatch, htext]
    rintro ⟨text, program, heq, hcompile⟩
    cases heq
    have hnot : Program.compiles "t)" = false := by decide +kernel
    rw [Program.compiles, hcompile] at hnot
    cases hnot
  · exact (herror 1 _).2 ⟨"1 +", by decide +kernel, by decide +kernel⟩
  · refine (htaken 0 "a").2.2 ⟨by decide +kernel, ?_⟩
    exact ⟨{ source := "a", tokens := [.atom (.input 0)], depth := 1 }, by decide +kernel⟩

end Session

end Bytebeat
