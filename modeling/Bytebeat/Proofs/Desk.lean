import Bytebeat.Proofs.Playing
import Bytebeat.Session

/-!
# Sessions, node by node

A session is laid out if its player is and if it has one entry for each
expression. Compiling a text changes the entry and the mailbox of one node;
flushing hands every waiting program to its mailbox. What a node has due, the
program that waits or else the newest in the mailbox, changes only when a text
for that node compiles.
-/

namespace Bytebeat

/-! ## One entry and its mailbox -/

namespace Entry

def publishTo (e : Entry) (p : Program) (m : Mailbox) : Entry × Mailbox :=
  ({ e with waiting := (m.publish p).2 }, (m.publish p).1)

def flushTo (e : Entry) (m : Mailbox) : Entry × Mailbox :=
  match e.waiting with
  | some p => e.publishTo p m
  | none => (e, m)

/-- The program that waits, or else the newest in the mailbox. -/
def due (e : Entry) (m : Mailbox) : Program := e.waiting.getD m.newest

theorem due_publishTo (e : Entry) (p : Program) (m : Mailbox) :
    (e.publishTo p m).1.due (e.publishTo p m).2 = p :=
  m.getD_publish p

theorem due_flushTo (e : Entry) (m : Mailbox) : (e.flushTo m).1.due (e.flushTo m).2 = e.due m := by
  rw [flushTo]
  split
  · rename_i p hp
    rw [due_publishTo, due, hp]
    rfl
  · rfl

theorem node_flushTo (e : Entry) (m : Mailbox) : (e.flushTo m).1.node = e.node := by
  rw [flushTo]
  split <;> rfl

theorem capacity_flushTo (e : Entry) (m : Mailbox) : (e.flushTo m).2.capacity = m.capacity := by
  rw [flushTo]
  split
  · exact m.capacity_publish _
  · rfl

/-- Nothing is left to wait where the mailbox has been refreshed. -/
theorem waiting_flushTo {m : Mailbox} (h : 0 < m.capacity) (e : Entry) :
    (e.flushTo m.refresh.1).1.waiting = none := by
  rw [flushTo]
  split
  · exact (Mailbox.publish_refresh h _).1
  · assumption

variable {l : Layout} {id : NodeId} {e : Entry}

theorem publish_player (hsound : l.Sound) (hid : l.isVoice id = true) (he : e.node = id)
    (p : Program) :
    e.publish p l.player =
      ((e.publishTo p (l.mailbox id)).1,
        (l.setMailbox id (e.publishTo p (l.mailbox id)).2).player) := by
  subst he
  rw [publish, hsound.publish_player hid]
  rfl

theorem flush_player (hsound : l.Sound) (hid : l.isVoice id = true) (he : e.node = id) :
    e.flush l.player =
      ((e.flushTo (l.mailbox id)).1, (l.setMailbox id (e.flushTo (l.mailbox id)).2).player) := by
  cases hwaiting : e.waiting with
  | some p => simp only [flush, flushTo, hwaiting, publish_player hsound hid he]
  | none => simp only [flush, flushTo, hwaiting, Layout.setMailbox, Function.update_eq_self]

end Entry

namespace Session

/-- The session consists of a player that is laid out and of one entry for each expression. -/
structure LaidOut (s : Session) (l : Layout) (entry : NodeId → Entry) : Prop where
  sound : l.Sound
  player : s.player = l.player
  entries : s.entries = l.voices.map entry
  node : ∀ id, (entry id).node = id
  isVoice : ∀ id, (s.patch.expression? id).isSome = l.isVoice id

variable {s : Session} {l : Layout} {entry : NodeId → Entry}

theorem LaidOut.find?_entries (h : s.LaidOut l entry) (id : NodeId) :
    s.entries.find? (·.node == id) = if l.isVoice id then some (entry id) else none := by
  have hfind : ∀ ids : List NodeId, (ids.map entry).find? (·.node == id) =
      if id ∈ ids then some (entry id) else none := by
    intro ids
    induction ids with
    | nil => rfl
    | cons k ks ih =>
      rw [List.map_cons, List.find?_cons, ih, h.node k]
      by_cases hk : k = id
      · simp [hk]
      · simp [Ne.symm hk, beq_eq_false_iff_ne.2 hk]
  simp only [h.entries, hfind, h.sound.mem_voices]

theorem LaidOut.setPlayer (h : s.LaidOut l entry) {l' : Layout} (hpatch : l'.patch = l.patch)
    (horder : l'.order = l.order) : { s with player := l'.player }.LaidOut l' entry := by
  have hvoice := Layout.isVoice_congr hpatch
  refine ⟨h.sound.congr hpatch horder, rfl, ?_, h.node, fun id => hvoice ▸ h.isVoice id⟩
  rw [Layout.voices, horder, hvoice]
  exact h.entries

theorem LaidOut.setTexts (h : s.LaidOut l entry) {p : Patch}
    (hp : ∀ id, (p.expression? id).isSome = (s.patch.expression? id).isSome) :
    { s with patch := p }.LaidOut l entry :=
  ⟨h.sound, h.player, h.entries, h.node, fun id => (hp id).trans (h.isVoice id)⟩

theorem LaidOut.setEntry (h : s.LaidOut l entry) {id : NodeId} {e : Entry} (he : e.node = id) :
    { s with entries := s.entries.map fun old : Entry => if old.node == id then e else old }.LaidOut l
      (Function.update entry id e) := by
  refine ⟨h.sound, h.player, ?_, ?_, h.isVoice⟩
  · simp only [h.entries, List.map_map]
    refine List.map_congr_left fun k _ => ?_
    by_cases hk : k = id <;> simp [h.node, hk]
  · exact (Function.forall_update_iff entry fun k e => e.node = k).2 ⟨he, fun k _ => h.node k⟩

theorem LaidOut.isValid_eq (h : s.LaidOut l entry) {id : NodeId} (hid : l.isVoice id = true) :
    s.isValid id = (entry id).isValid := by
  rw [isValid, entry?, h.find?_entries, if_pos hid]
  rfl

/-- A session with a player of a patch, before any text is compiled. -/
def ofPlayer (p : Patch) (sampleRate : UInt32) (player : Player) : Session :=
  { patch := p, sampleRate, player, entries := player.voices.map fun node => { node } }

theorem laidOut_ofPlayer {p : Patch} {order : List NodeId} {rate : Float} {sampleRate : UInt32}
    (hsound : (Layout.ofPatch p order rate).Sound) :
    (ofPlayer p sampleRate (Layout.ofPatch p order rate).player).LaidOut
      (Layout.ofPatch p order rate) fun node => { node } := by
  refine ⟨hsound, rfl, ?_, fun _ => rfl, fun _ => rfl⟩
  rw [ofPlayer, hsound.voices_player]

/-! ## Compiling a text -/

theorem lent_compileNode (s : Session) (id : NodeId) (text : String) :
    (s.compileNode id text).lent = s.lent := by
  unfold compileNode
  split <;> rfl

theorem sampleRate_compileNode (s : Session) (id : NodeId) (text : String) :
    (s.compileNode id text).sampleRate = s.sampleRate := by
  unfold compileNode
  split <;> rfl

theorem LaidOut.compileNode_of_not (h : s.LaidOut l entry) {id : NodeId}
    (hid : l.isVoice id = false) (text : String) : s.compileNode id text = s := by
  rw [compileNode, h.find?_entries, hid]
  rfl

theorem LaidOut.compileNode_of_ok (h : s.LaidOut l entry) {id : NodeId} (hid : l.isVoice id = true)
    {text : String} {p : Program} (hp : Program.compile text = .ok p) :
    let placed := { entry id with isValid := true, error := none }.publishTo p (l.mailbox id)
    (s.compileNode id text).LaidOut (l.setMailbox id placed.2)
      (Function.update entry id placed.1) ∧ (s.compileNode id text).isValid id = true := by
  intro placed
  have hnode : { entry id with isValid := true, error := none }.node = id := h.node id
  have hs : s.compileNode id text =
      { s with
        player := (l.setMailbox id placed.2).player
        entries := s.entries.map fun old : Entry => if old.node == id then placed.1 else old } := by
    rw [compileNode, h.find?_entries, if_pos hid]
    simp only [Entry.compile, hp, h.player, Entry.publish_player h.sound hid hnode]
    rfl
  have hlaid : (s.compileNode id text).LaidOut (l.setMailbox id placed.2)
      (Function.update entry id placed.1) := by
    rw [hs]
    have hpatch : (l.setMailbox id placed.2).patch = l.patch := rfl
    exact (h.setPlayer hpatch rfl).setEntry hnode
  refine ⟨hlaid, ?_⟩
  rw [hlaid.isValid_eq hid, Function.update_self]
  rfl

theorem LaidOut.compileNode_of_error (h : s.LaidOut l entry) {id : NodeId}
    (hid : l.isVoice id = true) {text : String} {e : CompileError}
    (he : Program.compile text = .error e) :
    (s.compileNode id text).LaidOut l
        (Function.update entry id { entry id with isValid := false, error := some e }) ∧
      (s.compileNode id text).isValid id = false := by
  have hs : s.compileNode id text =
      { s with entries := s.entries.map fun old : Entry =>
          if old.node == id then { entry id with isValid := false, error := some e } else old } := by
    rw [compileNode, h.find?_entries, if_pos hid]
    simp only [Entry.compile, he]
  have hlaid : (s.compileNode id text).LaidOut l
      (Function.update entry id { entry id with isValid := false, error := some e }) := by
    rw [hs]
    exact h.setEntry (h.node id)
  refine ⟨hlaid, ?_⟩
  rw [hlaid.isValid_eq hid, Function.update_self]

/-! ## Flushing -/

/-- Flushing the entries of some expressions flushes each into its own mailbox. -/
theorem flushAll_player {ids : List NodeId} (hnodup : ids.Nodup)
    (hnode : ∀ id, (entry id).node = id) :
    ∀ {l : Layout}, l.Sound → (∀ id ∈ ids, l.isVoice id = true) →
      Entry.flushAll (ids.map entry) l.player =
        (ids.map fun id => ((entry id).flushTo (l.mailbox id)).1,
          { l with mailbox := fun id =>
              if id ∈ ids then ((entry id).flushTo (l.mailbox id)).2 else l.mailbox id }.player) := by
  induction ids with
  | nil =>
    intro l _ _
    simp [Entry.flushAll]
  | cons id ids ih =>
    intro l hsound hvoices
    obtain ⟨hid, hnodup⟩ := List.nodup_cons.1 hnodup
    have hne : ∀ k ∈ ids, k ≠ id := fun k hk => ne_of_mem_of_not_mem hk hid
    rw [List.map_cons, Entry.flushAll,
      Entry.flush_player hsound (hvoices id List.mem_cons_self) (hnode id)]
    simp only [ih hnodup (l := l.setMailbox id ((entry id).flushTo (l.mailbox id)).2)
      (hsound.congr rfl rfl) fun k hk => hvoices k (List.mem_cons_of_mem _ hk)]
    refine Prod.ext ?_ ?_
    · refine congrArg (List.cons _) (List.map_congr_left fun k hk => ?_)
      simp [Layout.setMailbox, hne k hk]
    · refine congrArg (fun mailbox => Layout.player { l with mailbox }) (funext fun k => ?_)
      by_cases hk : k = id
      · subst hk
        simp [Layout.setMailbox, hid]
      · simp [Layout.setMailbox, hk]

/-- The mailbox that the entry of a node is flushed into: a session that has its player refreshes
the mailbox first. -/
def flushed (s : Session) (l : Layout) (id : NodeId) : Mailbox :=
  if s.lent then l.mailbox id else (l.mailbox id).refresh.1

theorem LaidOut.flush (h : s.LaidOut l entry) :
    s.flush.LaidOut { l with mailbox := fun id => ((entry id).flushTo (s.flushed l id)).2 }
      fun id => ((entry id).flushTo (s.flushed l id)).1 := by
  have hsound : Layout.Sound { l with mailbox := s.flushed l } := h.sound.congr rfl rfl
  have hplayer : (if s.lent then s.player else s.player.refresh) =
      { l with mailbox := s.flushed l }.player := by
    rw [h.player, Layout.refresh_player]
    unfold flushed
    split <;> rfl
  have hflush := flushAll_player h.sound.nodup_voices h.node hsound fun id hid =>
    (h.sound.mem_voices id).1 hid
  -- The expressions are all flushed; the other nodes have no mailbox in the player.
  have hall : { l with mailbox := fun id =>
      if id ∈ l.voices then ((entry id).flushTo (s.flushed l id)).2 else s.flushed l id }.player =
        { l with mailbox := fun id => ((entry id).flushTo (s.flushed l id)).2 }.player :=
    Layout.Sound.player_congr (l := { l with
      mailbox := fun id => ((entry id).flushTo (s.flushed l id)).2 })
      (h.sound.congr rfl rfl) fun id hid => if_pos ((h.sound.mem_voices id).2 hid)
  have hs : s.flush =
      { s with
        player := { l with mailbox := fun id => ((entry id).flushTo (s.flushed l id)).2 }.player
        entries := l.voices.map fun id => ((entry id).flushTo (s.flushed l id)).1 } := by
    simp only [Session.flush, hplayer, h.entries, hflush, hall]
  rw [hs]
  exact ⟨h.sound.congr rfl rfl, rfl, rfl,
    fun id => (Entry.node_flushTo _ _).trans (h.node id), h.isVoice⟩

end Session

end Bytebeat
