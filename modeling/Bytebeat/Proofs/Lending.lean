import Bytebeat.Proofs.Actions
import Bytebeat.Proofs.Rendering
import Bytebeat.Proofs.Selection

/-!
# Edits of a player that is lent out

Until its patch is replaced, a session and the player that it may have lent out
are used in any order. Each action lets the programs on their way to a node
advance (`Session.carriesOn_act`), so that in a whole row they are selected
from what has compiled for the node since the patch was set (`Session.history`)
and the newest is installed after a frame, a flush and another frame
(`Session.edits_reach_lent_player`).
-/

namespace Bytebeat

/-- A call that publishes nothing leaves a mailbox, takes back what is retired or refreshes it. -/
theorem Layout.Sound.mailbox_call {l : Layout} (h : l.Sound) {c : Player.Call}
    (hc : ∀ node text, c ≠ .publish node text) (id : NodeId) :
    (l.call c).2.mailbox id = l.mailbox id ∨
      (l.call c).2.mailbox id = (l.mailbox id).reclaim.1 ∨
      (l.call c).2.mailbox id = (l.mailbox id).refresh.1 := by
  cases c with
  | publish node text => exact absurd rfl (hc node text)
  | reclaim node =>
    by_cases hid : id = node
    · subst hid
      exact .inr (.inl (Function.update_self ..))
    · exact .inl (Function.update_of_ne hid ..)
  | refresh => exact .inr (.inr rfl)
  | renderFrame =>
    rw [call, h.mailbox_renderFrame]
    split
    · exact .inr (.inr rfl)
    · exact .inl rfl
  | startNote _ | sync _ | prepare _ => exact .inl rfl

namespace Session

/-! ## Programs carried by a session -/

/-- The programs at an expression node; `none` for a node that is no expression. -/
def chain? (s : Session) (id : NodeId) : Option (List Program) := do
  let e ← s.entry? id
  let m ← s.player.mailbox? id
  return e.chain m

theorem current_of_chain? {s : Session} {id : NodeId} {p : Program} {ps : List Program}
    (h : s.chain? id = some (p :: ps)) :
    ∃ m, s.player.mailbox? id = some m ∧ m.current = p := by
  obtain ⟨e, -, h⟩ := Option.bind_eq_some_iff.1 h
  obtain ⟨m, hm, h⟩ := Option.bind_eq_some_iff.1 h
  exact ⟨m, hm, (List.cons.inj (Option.some.inj h)).1⟩

theorem LaidOut.chain?_eq {s : Session} {l : Layout} {entry : NodeId → Entry}
    (h : s.LaidOut l entry) {id : NodeId} (hid : l.isVoice id = true) :
    s.chain? id = some ((entry id).chain (l.mailbox id)) := by
  rw [chain?, entry?, h.find?_entries, if_pos hid, h.player, h.sound.mailbox?_player hid]
  rfl

/-- The session is laid out for a patch, with the programs `chain id` at node `id`. -/
def Carries (s : Session) (p : Patch) (chain : NodeId → List Program) : Prop :=
  ∃ l entry, s.LaidOut l entry ∧ l.patch = p ∧ (∀ id, 0 < (l.mailbox id).capacity) ∧
    ∀ id, chain id = (entry id).chain (l.mailbox id)

/-- Whatever programs are on their way in a session, in the other they have advanced by those that
are added. -/
def CarriesOn (s s' : Session) (added : NodeId → List Program) : Prop :=
  ∀ p chain, s.Carries p chain → ∃ chain', s'.Carries p chain' ∧
    ∀ id, (p.expression? id).isSome = true → Advances (chain id) (added id) (chain' id)

variable {s s' s'' : Session} {l : Layout} {entry : NodeId → Entry} {p : Patch}
  {chain : NodeId → List Program} {added : NodeId → List Program}

theorem carriesOn_of_laidOut
    (h : ∀ {l entry}, s.LaidOut l entry → (∀ id, 0 < (l.mailbox id).capacity) →
      ∃ l' entry', s'.LaidOut l' entry' ∧ l'.patch = l.patch ∧
        (∀ id, 0 < (l'.mailbox id).capacity) ∧
        ∀ id, l.isVoice id = true → Advances ((entry id).chain (l.mailbox id)) (added id)
          ((entry' id).chain (l'.mailbox id))) :
    s.CarriesOn s' added := by
  rintro p chain ⟨l, entry, hlaid, rfl, hroom, hchain⟩
  obtain ⟨l', entry', hlaid', hpatch, hroom', hadvances⟩ := h hlaid hroom
  refine ⟨_, ⟨l', entry', hlaid', hpatch, hroom', fun _ => rfl⟩, fun id hid => ?_⟩
  rw [hchain]
  exact hadvances id hid

theorem CarriesOn.refl (s : Session) : s.CarriesOn s fun _ => [] :=
  carriesOn_of_laidOut fun {l entry} hlaid hroom =>
    ⟨l, entry, hlaid, rfl, hroom, fun _ _ => Entry.advances_refl _ _⟩

theorem CarriesOn.trans (h : s.CarriesOn s' fun _ => []) (h' : s'.CarriesOn s'' fun _ => []) :
    s.CarriesOn s'' fun _ => [] := by
  intro p chain hs
  obtain ⟨chain', hs', hadvances⟩ := h p chain hs
  obtain ⟨chain'', hs'', hadvances'⟩ := h' p chain' hs'
  exact ⟨chain'', hs'', fun id hid => (hadvances id hid).trans (hadvances' id hid)⟩

/-! ## Texts -/

def compiledFor (id : NodeId) (edit : NodeId × String) : List Program :=
  if edit.1 = id then (Program.compile edit.2).toOption.toList else []

theorem compiledFor_of_ne {id node : NodeId} (h : id ≠ node) (text : String) :
    compiledFor id (node, text) = [] :=
  if_neg h.symm

theorem compiledFor_self (node : NodeId) (text : String) :
    compiledFor node (node, text) = (Program.compile text).toOption.toList :=
  if_pos rfl

theorem carriesOn_compileNode (s : Session) (node : NodeId) (text : String) :
    s.CarriesOn (s.compileNode node text) fun id => compiledFor id (node, text) := by
  refine carriesOn_of_laidOut fun {l entry} hlaid hroom => ?_
  cases hvoice : l.isVoice node with
  | false =>
    rw [hlaid.compileNode_of_not hvoice]
    refine ⟨l, entry, hlaid, rfl, hroom, fun id hid => ?_⟩
    rw [compiledFor_of_ne fun heq => by rw [heq, hvoice] at hid; cases hid]
    exact Entry.advances_refl _ _
  | true =>
    cases hcompile : Program.compile text with
    | error e =>
      refine ⟨l, _, (hlaid.compileNode_of_error hvoice hcompile).1, rfl, hroom, fun id _ => ?_⟩
      by_cases hid : id = node
      · subst hid
        rw [compiledFor_self, hcompile, Function.update_self]
        exact Entry.advances_refl _ _
      · rw [compiledFor_of_ne hid, Function.update_of_ne hid]
        exact Entry.advances_refl _ _
    | ok program =>
      refine ⟨_, _, (hlaid.compileNode_of_ok hvoice hcompile).1, rfl,
        Layout.room_update hroom (Mailbox.capacity_publish _ _), fun id _ => ?_⟩
      by_cases hid : id = node
      · subst hid
        simp only [compiledFor_self, hcompile, Layout.setMailbox, Function.update_self]
        exact Entry.advances_publishTo { entry id with isValid := true, error := none } _ _
      · simp only [compiledFor_of_ne hid, Layout.setMailbox, Function.update_of_ne hid]
        exact Entry.advances_refl _ _

theorem Carries.setTexts (h : s.Carries p chain) {patch : Patch}
    (hsame : ∀ id, (patch.expression? id).isSome = (s.patch.expression? id).isSome) :
    { s with patch }.Carries p chain := by
  obtain ⟨l, entry, hlaid, hpatch, hroom, hchain⟩ := h
  exact ⟨l, entry, hlaid.setTexts hsame, hpatch, hroom, hchain⟩

theorem carriesOn_setExpression (s : Session) (node : NodeId) (text : String) :
    s.CarriesOn (s.setExpression node text).1 fun id => compiledFor id (node, text) := by
  unfold setExpression
  cases hset : s.patch.setExpression? node text with
  | none =>
    -- The node is no expression, so that no expression's programs have changed.
    refine carriesOn_of_laidOut fun {l entry} hlaid hroom => ⟨l, entry, hlaid, rfl, hroom, ?_⟩
    intro id hid
    rw [Patch.setExpression?_eq_none_iff, hlaid.isVoice] at hset
    rw [compiledFor_of_ne fun heq => by rw [heq, hset] at hid; cases hid]
    exact Entry.advances_refl _ _
  | some patch =>
    intro p chain h
    exact carriesOn_compileNode _ node text p chain
      (h.setTexts (Patch.isSome_expression?_of_setExpression? hset))

/-! ## Installing -/

theorem carriesOn_flush (s : Session) : s.CarriesOn s.flush fun _ => [] := by
  refine carriesOn_of_laidOut fun {l entry} hlaid hroom =>
    ⟨_, _, hlaid.flush, rfl, fun id => ?_, fun id _ => ?_⟩
  · rw [Entry.capacity_flushTo, flushed]
    split
    · exact hroom id
    · exact (Mailbox.capacity_refresh _).symm ▸ hroom id
  · rw [Entry.chain_flushTo, flushed]
    split
    · exact Entry.advances_refl _ _
    · exact Entry.advances_refresh _ _

theorem carriesOn_lend (s : Session) : s.CarriesOn { s with lent := true } fun _ => [] :=
  carriesOn_of_laidOut fun {l entry} hlaid hroom =>
    ⟨l, entry, hlaid.lend, rfl, hroom, fun _ _ => Entry.advances_refl _ _⟩

theorem carriesOn_call {c : Player.Call} (hc : ∀ node text, c ≠ .publish node text) (s : Session) :
    s.CarriesOn { s with player := (s.player.call c).2 } fun _ => [] := by
  refine carriesOn_of_laidOut fun {l entry} hlaid hroom =>
    ⟨_, entry, hlaid.call c, l.patch_call c, fun id => ?_, fun id _ => ?_⟩
  · rcases hlaid.sound.mailbox_call hc id with hm | hm | hm <;> rw [hm]
    · exact hroom id
    · exact hroom id
    · exact (Mailbox.capacity_refresh _).symm ▸ hroom id
  · rcases hlaid.sound.mailbox_call hc id with hm | hm | hm <;> rw [hm]
    · exact Entry.advances_refl _ _
    · exact Entry.advances_refl _ _
    · exact Entry.advances_refresh _ _

theorem Passes.carriesOn (h : s.Passes s') : s.CarriesOn s' fun _ => [] := by
  induction h with
  | refl => exact .refl s
  | flush _ ih => exact ih.trans (carriesOn_flush _)
  | lend _ ih => exact ih.trans (carriesOn_lend _)
  | call hc _ ih => exact ih.trans (carriesOn_call hc _)

/-! ## Actions -/

def Action.compiled (id : NodeId) : Action → List Program
  | .ask (.setExpression node text) => compiledFor id (node, text)
  | _ => []

/-- The empty program, and then what has compiled for a node since the patch was set. -/
def history (p : Patch) (actions : List Action) (id : NodeId) : List Program :=
  .empty :: p.expressions.flatMap (compiledFor id) ++ actions.flatMap (Action.compiled id)

theorem carriesOn_act {a : Action} (ha : a.keepsPatch = true) (s : Session) :
    s.CarriesOn (s.act a).2 fun id => a.compiled id := by
  by_cases hset : ∃ node text, a = .ask (.setExpression node text)
  · obtain ⟨node, text, rfl⟩ := hset
    exact carriesOn_setExpression s node text
  · have hnone : ∀ id, a.compiled id = [] := by
      intro id
      unfold Action.compiled
      split
      · exact absurd ⟨_, _, rfl⟩ hset
      · rfl
    simp only [hnone]
    exact ((passes_act ha s).resolve_left hset).carriesOn

/-! ## Runs -/

/-- At each expression the session carries a selection from the history. -/
def Tracks (s : Session) (p : Patch) (past : NodeId → List Program)
    (positions : NodeId → List Nat) : Prop :=
  ∃ chain, s.Carries p chain ∧
    ∀ id, (p.expression? id).isSome = true → Selects (past id) (positions id) (chain id)

variable {past : NodeId → List Program} {positions : NodeId → List Nat}

theorem Tracks.carryOn (h : s.Tracks p past positions) (hs : s.CarriesOn s' added) :
    ∃ positions', s'.Tracks p (fun id => past id ++ added id) positions' ∧
      ∀ id, (p.expression? id).isSome = true →
        (positions id).headD 0 ≤ (positions' id).headD 0 := by
  obtain ⟨chain, hcarries, hselects⟩ := h
  obtain ⟨chain', hcarries', hadvances⟩ := hs p chain hcarries
  have hexists : ∀ id, ∃ positions', (p.expression? id).isSome = true →
      Selects (past id ++ added id) positions' (chain' id) ∧
        (positions id).headD 0 ≤ positions'.headD 0 := by
    intro id
    by_cases hid : (p.expression? id).isSome = true
    · obtain ⟨positions', h⟩ := (hselects id hid).advance (hadvances id hid)
      exact ⟨positions', fun _ => h⟩
    · exact ⟨[], fun hid' => absurd hid' hid⟩
  choose positions' hpositions using hexists
  exact ⟨positions', ⟨chain', hcarries', fun id hid => (hpositions id hid).1⟩,
    fun id hid => (hpositions id hid).2⟩

/-- Through a row of actions the first of the programs selected never goes back. -/
theorem Tracks.acts {actions : List Action} (hkeeps : ∀ a ∈ actions, a.keepsPatch = true) :
    ∀ {s : Session} {past : NodeId → List Program} {positions : NodeId → List Nat},
      s.Tracks p past positions → ∃ later : Nat → NodeId → List Nat, later 0 = positions ∧ ∀ k,
        (s.acts (actions.take k)).2.Tracks p
          (fun id => past id ++ (actions.take k).flatMap (Action.compiled id)) (later k) ∧
        ∀ id, (p.expression? id).isSome = true →
          (later k id).headD 0 ≤ (later (k + 1) id).headD 0 := by
  induction actions with
  | nil =>
    intro s past positions h
    refine ⟨fun _ => positions, rfl, fun k => ⟨?_, fun _ _ => Nat.le_refl _⟩⟩
    simpa [Session.acts, answers] using h
  | cons a actions ih =>
    obtain ⟨ha, hkeeps⟩ := List.forall_mem_cons.1 hkeeps
    intro s past positions h
    obtain ⟨positions', h', hhead⟩ := h.carryOn (carriesOn_act ha s)
    obtain ⟨later, rfl, hrest⟩ := ih hkeeps h'
    refine ⟨fun k => Nat.casesOn k positions later, rfl, fun k => ?_⟩
    cases k with
    | zero =>
      refine ⟨?_, hhead⟩
      simpa [Session.acts, answers] using h
    | succ k =>
      obtain ⟨htracks, hheads⟩ := hrest k
      refine ⟨?_, hheads⟩
      simpa [Session.acts, answers, List.append_assoc] using htracks

theorem Tracks.after (h : s.Tracks p past positions) {actions : List Action}
    (hkeeps : ∀ a ∈ actions, a.keepsPatch = true) : ∃ positions', (s.acts actions).2.Tracks p
      (fun id => past id ++ actions.flatMap (Action.compiled id)) positions' := by
  obtain ⟨later, -, hlater⟩ := h.acts hkeeps
  have hall := (hlater actions.length).1
  rw [List.take_length] at hall
  exact ⟨_, hall⟩

theorem Tracks.exists_chain? (h : s.Tracks p past positions) {id : NodeId}
    (hid : (p.expression? id).isSome = true) :
    ∃ chain, s.chain? id = some chain ∧ Selects (past id) (positions id) chain := by
  obtain ⟨chain, ⟨l, entry, hlaid, rfl, -, hchain⟩, hselects⟩ := h
  exact ⟨chain id, by rw [hchain, hlaid.chain?_eq hid], hselects id hid⟩

theorem Tracks.compileNodes (edits : List (NodeId × String)) :
    ∀ {s : Session} {past : NodeId → List Program} {positions : NodeId → List Nat},
      s.Tracks p past positions → ∃ positions',
        (edits.foldl (fun s (node, text) => s.compileNode node text) s).Tracks p
          (fun id => past id ++ edits.flatMap (compiledFor id)) positions' := by
  induction edits with
  | nil =>
    intro s past positions h
    exact ⟨positions, by simpa using h⟩
  | cons edit edits ih =>
    intro s past positions h
    obtain ⟨positions', h', -⟩ := h.carryOn (carriesOn_compileNode s edit.1 edit.2)
    obtain ⟨positions'', h''⟩ := ih h'
    exact ⟨positions'', by simpa [List.append_assoc] using h''⟩

theorem exists_tracks_of_setPatch {s₀ : Session} (hset : s₀.setPatch p = .ok s) :
    ∃ positions, s.Tracks p (fun id => .empty :: p.expressions.flatMap (compiledFor id))
      positions := by
  obtain ⟨order, hsound, rfl⟩ := eq_compileNodes_of_setPatch hset
  have hfresh : (ofPlayer p s₀.sampleRate
      (Layout.ofPatch p order (Float.ofNat s₀.sampleRate.toNat)).player).Tracks p
      (fun _ => [.empty]) fun _ => [0] :=
    ⟨_, ⟨_, _, laidOut_ofPlayer hsound, rfl, Layout.capacity_ofPatch _ _ _, fun _ => rfl⟩,
      fun _ _ => ⟨List.pairwise_singleton _ _, rfl, rfl⟩⟩
  exact hfresh.compileNodes p.expressions

/-! ## A player that is lent out -/

theorem Passes.lent (h : s.Passes s') (hlent : s.lent = true) : s'.lent = true := by
  induction h with
  | refl => exact hlent
  | flush _ ih => exact ih
  | lend => rfl
  | call _ _ ih => exact ih

theorem lent_act {a : Action} (ha : a.keepsPatch = true) (hlent : s.lent = true) :
    (s.act a).2.lent = true := by
  rcases passes_act ha s with ⟨node, text, rfl⟩ | hs
  · simp only [act, respond, setExpression]
    split
    · exact hlent
    · exact (lent_compileNode _ node text).trans hlent
  · exact hs.lent hlent

theorem lent_acts {actions : List Action} (hkeeps : ∀ a ∈ actions, a.keepsPatch = true)
    (h : s.lent = true ∨ .lend ∈ actions) : (s.acts actions).2.lent = true := by
  induction actions generalizing s with
  | nil => exact h.resolve_right List.not_mem_nil
  | cons a actions ih =>
    obtain ⟨ha, hkeeps⟩ := List.forall_mem_cons.1 hkeeps
    refine ih hkeeps ?_
    rcases h with hlent | hmem
    · exact .inl (lent_act ha hlent)
    · rcases List.mem_cons.1 hmem with rfl | hmem
      · exact .inl rfl
      · exact .inr hmem

theorem act_renderFrame (hlent : s.lent = true) :
    (s.act (.lent .renderFrame)).2 = { s with player := s.player.renderFrame.2 } := by
  rw [act, onLent_eq, if_pos hlent]
  rfl

theorem LaidOut.renderFrame (h : s.LaidOut l entry) :
    { s with player := s.player.renderFrame.2 }.LaidOut l.renderFrame.2 entry :=
  h.call .renderFrame

theorem isVoice_renderFrame {id : NodeId} (hid : l.isVoice id = true) :
    l.renderFrame.2.isVoice id = true :=
  Layout.isVoice_congr l.patch_renderFrame ▸ hid

theorem LaidOut.chain?_renderFrame (h : s.LaidOut l entry) {id : NodeId}
    (hid : l.isVoice id = true) :
    { s with player := s.player.renderFrame.2 }.chain? id =
      some ((entry id).chain (l.mailbox id).refresh.1) := by
  rw [h.renderFrame.chain?_eq (isVoice_renderFrame hid), h.sound.mailbox_renderFrame, if_pos hid]

/-- After a frame there is room in the mailbox for the program that waits. -/
theorem LaidOut.flush_renderFrame (h : s.LaidOut l entry) (hlent : s.lent = true) {id : NodeId}
    (hid : l.isVoice id = true) (hroom : 0 < (l.mailbox id).capacity) : ∃ l' entry',
    { s with player := s.player.renderFrame.2 }.flush.LaidOut l' entry' ∧
      l'.isVoice id = true ∧ (entry' id).waiting = none := by
  refine ⟨_, _, h.renderFrame.flush, isVoice_renderFrame hid, ?_⟩
  have hlent' : { s with player := s.player.renderFrame.2 }.lent = true := hlent
  rw [flushed, if_pos hlent', h.sound.mailbox_renderFrame, if_pos hid]
  exact Entry.waiting_flushTo hroom _

/-- The program that waits is queued after a frame, and another frame installs it. -/
theorem Tracks.drain (h : s.Tracks p past positions) (hlent : s.lent = true) {id : NodeId}
    (hid : (p.expression? id).isSome = true) : ∃ newest,
    (s.acts [.lent .renderFrame, .ask .flush, .lent .renderFrame]).2.chain? id = some [newest] := by
  obtain ⟨chain, ⟨l, entry, hlaid, rfl, hroom, -⟩, -⟩ := h
  obtain ⟨l', entry', hlaid', hid', hwaiting⟩ :=
    hlaid.flush_renderFrame hlent hid (hroom id)
  have hlent' : { s with player := s.player.renderFrame.2 }.flush.lent = true := hlent
  have hacts : (s.acts [.lent .renderFrame, .ask .flush, .lent .renderFrame]).2 =
      ((s.act (.lent .renderFrame)).2.flush.act (.lent .renderFrame)).2 := rfl
  have hchain := hlaid'.chain?_renderFrame hid'
  rw [Entry.chain, hwaiting, Mailbox.inbound_refresh] at hchain
  rw [hacts, act_renderFrame hlent, act_renderFrame hlent']
  exact ⟨_, hchain⟩

/-- **Edits reach a player that is lent out in order, and none that matters is lost.** In every row
of actions that keep the patch, before and after the player is lent out and in whatever order the
session and the player are called, the program installed at each expression, those queued and the
one that waits are a selection of what has compiled for it, in order and up to the newest, and
the one installed never goes back. Once the player is lent out, a frame, a flush and another
frame leave the newest installed. -/
theorem edits_reach_lent_player {s₀ s : Session} {p : Patch} (hset : s₀.setPatch p = .ok s)
    {actions : List Action} (hkeeps : ∀ a ∈ actions, a.keepsPatch = true) :
    (∃ positions : Nat → NodeId → List Nat, ∀ k id, (p.expression? id).isSome = true →
      (∃ chain, (s.acts (actions.take k)).2.chain? id = some chain ∧
        Selects (history p (actions.take k) id) (positions k id) chain) ∧
      (positions k id).headD 0 ≤ (positions (k + 1) id).headD 0) ∧
    (.lend ∈ actions → ∀ id, (p.expression? id).isSome = true → ∃ player m,
      (s.acts (actions ++ [.lent .renderFrame, .ask .flush, .lent .renderFrame])).2.lentPlayer? =
          some player ∧
        player.mailbox? id = some m ∧ (history p actions id).getLast? = some m.current) := by
  obtain ⟨positions, h⟩ := exists_tracks_of_setPatch hset
  refine ⟨?_, fun hmem id hid => ?_⟩
  · obtain ⟨later, -, hlater⟩ := h.acts hkeeps
    exact ⟨later, fun k id hid => ⟨(hlater k).1.exists_chain? hid, (hlater k).2 id hid⟩⟩
  · have hdrain : ∀ a ∈ [Action.lent .renderFrame, .ask .flush, .lent .renderFrame],
        a.keepsPatch = true := by decide
    have hlent := lent_acts (s := s) hkeeps (.inr hmem)
    obtain ⟨positions', h'⟩ := h.after hkeeps
    obtain ⟨positions'', h''⟩ := h'.after hdrain
    obtain ⟨newest, hnewest⟩ := h'.drain hlent hid
    obtain ⟨chain, hchain, hselects⟩ := h''.exists_chain? hid
    obtain rfl : [newest] = chain := Option.some.inj (hnewest.symm.trans hchain)
    obtain ⟨m, hm, rfl⟩ := current_of_chain? hnewest
    rw [acts_append]
    refine ⟨_, m, if_pos (lent_acts hdrain (.inl hlent)), hm, ?_⟩
    rw [history, ← List.append_nil (_ ++ _)]
    exact hselects.getLast?_eq.symm

/-- More edits than a mailbox holds of a player that is lent out, and after them one that does not
compile and one that does. -/
theorem edits_reach_lent_player_overflowing :
    let p := Patch.single "rand"
    let actions : List Action := [.lend] ++ List.replicate 6 (.ask (.setExpression 0 "t")) ++
      [.ask .flush, .ask (.setExpression 0 "t+"), .ask (.setExpression 0 "rand")]
    ∃ s, (ofSampleRate 8000).setPatch p = .ok s ∧ (∀ a ∈ actions, a.keepsPatch = true) ∧
      (∃ positions chain, (s.acts actions).2.chain? 0 = some chain ∧
        Selects (history p actions 0) positions chain) ∧
      ∃ player m,
        (s.acts (actions ++
          [.lent .renderFrame, .ask .flush, .lent .renderFrame])).2.lentPlayer? = some player ∧
          player.mailbox? 0 = some m ∧
          (Program.compile "rand").toOption = some m.current := by
  intro p actions
  have hwired : p.checkConnections = .ok () := by decide +kernel
  have horder : p.order = .ok [0, 1] := by decide +kernel
  have hplayer := Player.ofPatch_eq_ok_iff.2
    ⟨Patch.checkConnections_eq_ok_iff_wired.1 hwired, _, horder,
      show (Layout.ofPatch p [0, 1] (Float.ofNat (8000 : UInt32).toNat)).player = _ from rfl⟩
  obtain ⟨s, hset⟩ : ∃ s, (ofSampleRate 8000).setPatch p = .ok s := by
    rw [setPatch, show (ofSampleRate 8000).sampleRate = 8000 from rfl, hplayer]
    exact ⟨_, rfl⟩
  have hkeeps : ∀ a ∈ actions, a.keepsPatch = true := by decide
  obtain ⟨⟨positions, hselects⟩, hnewest⟩ := edits_reach_lent_player hset hkeeps
  obtain ⟨⟨chain, hchain⟩, -⟩ := hselects actions.length 0 (by decide)
  rw [List.take_length] at hchain
  obtain ⟨player, m, hlent, hm, hlast⟩ := hnewest List.mem_cons_self 0 (by decide)
  have hcompiles : (history p actions 0).getLast? = (Program.compile "rand").toOption := by
    decide +kernel
  exact ⟨s, hset, hkeeps, ⟨_, chain, hchain⟩, player, m, hlent, hm, hcompiles ▸ hlast⟩

end Session

end Bytebeat
