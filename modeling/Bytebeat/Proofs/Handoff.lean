import Bytebeat.Proofs.Mailbox

/-!
# The ledger of a mailbox

A `Ledger` is a mailbox with what has become of the programs given to it: those
it accepted, those that have been installed and those taken back, each in order.
Programs pass from the inbound queue through the place of the installed one to
the queue of retired ones and from there back to the editor, so that the four
read in turn are the programs accepted (`Ledger.Balanced`). No call breaks this,
nor does any moment in the midst of refreshing (`Ledger.after_balanced`).
-/

namespace Bytebeat

namespace Mailbox

/-- The programs in a mailbox, oldest first: the retired, the installed and the waiting ones. -/
def contents (m : Mailbox) : List Program := m.retired ++ m.current :: m.inbound

/-! ## In the midst of refreshing -/

/-- The mailbox in the midst of refreshing, when `k` of the programs that wait have been
installed. -/
def refreshing (m : Mailbox) (k : Nat) : Mailbox :=
  (m.inbound.take k).foldl install { m with inbound := m.inbound.drop k }

theorem install_of_room {m : Mailbox} (h : m.retired.length < m.capacity + 1) (p : Program) :
    m.install p = { m with retired := m.retired ++ [m.current], current := p } := by
  rw [install, retire, if_pos h]

theorem foldl_install_fst (ps : List Program) (m : Mailbox) (changed : Bool) :
    (ps.foldl (fun (m, _) p => (m.install p, true)) (m, changed)).1 = ps.foldl install m := by
  induction ps generalizing m changed with
  | nil => rfl
  | cons p ps ih => exact ih (m.install p) true

theorem refresh_eq_refreshing (m : Mailbox) : m.refresh.1 = m.refreshing m.pending := by
  rw [refresh, foldl_install_fst, refreshing, pending, List.take_length, List.drop_length]

theorem refresh_snd (m : Mailbox) : m.refresh.2 = true ↔ m.pending ≠ 0 := by
  have hchanged : m.refresh.2 = (false || !m.inbound.isEmpty) :=
    (foldl_install m.inbound _ false).2.2.2
  rw [hchanged, Bool.false_or, Bool.not_eq_true', List.isEmpty_eq_false_iff, pending,
    ← List.length_pos_iff, Nat.pos_iff_ne_zero]

theorem capacity_refreshing (m : Mailbox) (k : Nat) : (m.refreshing k).capacity = m.capacity := by
  rw [refreshing, ← foldl_install_fst _ _ false]
  exact (foldl_install _ _ _).2.2.1

theorem current_refreshing (m : Mailbox) (k : Nat) :
    (m.refreshing k).current = (m.inbound.take k).getLastD m.current := by
  rw [refreshing, ← foldl_install_fst _ _ false]
  exact (foldl_install _ _ _).1

/-- Where there is room for all that are replaced, installing programs one after the other retires
each in turn and loses none. -/
theorem contents_foldl_install (ps : List Program) :
    ∀ {m : Mailbox}, m.retired.length + ps.length ≤ m.capacity + 1 →
      (ps.foldl install m).contents = m.retired ++ m.current :: (ps ++ m.inbound) ∧
        (ps.foldl install m).retired.length = m.retired.length + ps.length := by
  induction ps with
  | nil => exact fun _ => ⟨rfl, rfl⟩
  | cons p ps ih =>
    intro m h
    rw [List.length_cons] at h
    rw [List.foldl_cons, install_of_room (by omega)]
    obtain ⟨hcontents, hlength⟩ :=
      @ih { m with retired := m.retired ++ [m.current], current := p } (by simp; omega)
    refine ⟨hcontents.trans (by simp), hlength.trans ?_⟩
    simp only [List.length_append, List.length_cons, List.length_nil]
    omega

variable {m : Mailbox}

theorem refreshing_of_room (h : m.pending + m.retired.length ≤ m.capacity) {k : Nat}
    (hk : k ≤ m.pending) :
    (m.refreshing k).contents = m.contents ∧
      (m.refreshing k).retired.length = m.retired.length + k := by
  have htake : (m.inbound.take k).length = k := List.length_take_of_le hk
  have hroom : m.retired.length + (m.inbound.take k).length ≤ m.capacity + 1 := by omega
  obtain ⟨hcontents, hlength⟩ :=
    contents_foldl_install _ (m := { m with inbound := m.inbound.drop k }) hroom
  rw [List.take_append_drop] at hcontents
  rw [htake] at hlength
  exact ⟨hcontents, hlength⟩

theorem map_current_refreshing (m : Mailbox) :
    ((List.range m.pending).map fun k => (m.refreshing (k + 1)).current) = m.inbound := by
  refine List.ext_getElem (by simp [pending]) fun k _ hk => ?_
  rw [List.getElem_map, List.getElem_range, current_refreshing, List.take_add_one,
    List.getElem?_eq_getElem hk, Option.toList_some, List.getLastD_concat]

end Mailbox

/-! ## Ledgers -/

inductive Mailbox.Call where
  | publish (p : Program)
  | refresh
  | reclaim

structure Ledger where
  mailbox : Mailbox
  /-- The program installed at first and all that were accepted since. -/
  history : List Program
  /-- All programs that have been installed. -/
  installed : List Program
  /-- The programs that the editor has taken back. -/
  freed : List Program

namespace Ledger

def ofCapacity (capacity : Nat) : Ledger where
  mailbox := .ofCapacity capacity
  history := [.empty]
  installed := [.empty]
  freed := []

/-- Makes a call and enters what becomes of the programs. Publishing takes back what is retired
before anything else. -/
def step (l : Ledger) : Mailbox.Call → Ledger
  | .publish p =>
    let (m, refused) := l.mailbox.publish p
    { l with
      mailbox := m
      history := if refused.isSome then l.history else l.history ++ [p]
      freed := l.freed ++ l.mailbox.reclaim.2 }
  | .refresh =>
    { l with
      mailbox := l.mailbox.refresh.1
      installed := l.installed ++
        (List.range l.mailbox.pending).map fun k => (l.mailbox.refreshing (k + 1)).current }
  | .reclaim =>
    let (m, freed) := l.mailbox.reclaim
    { l with mailbox := m, freed := l.freed ++ freed }

def after (l : Ledger) (calls : List Mailbox.Call) : Ledger := calls.foldl step l

/-- Every program of the history is in one place: taken back, retired, installed or waiting. -/
structure Balanced (capacity : Nat) (l : Ledger) : Prop where
  capacity : l.mailbox.capacity = max capacity 1
  room : l.mailbox.pending + l.mailbox.retired.length ≤ l.mailbox.capacity
  conserved : l.history = l.freed ++ l.mailbox.contents
  installed : l.history = l.installed ++ l.mailbox.inbound

variable {capacity : Nat} {l : Ledger}

theorem balanced_ofCapacity (capacity : Nat) : (ofCapacity capacity).Balanced capacity :=
  ⟨rfl, Nat.zero_le _, rfl, rfl⟩

theorem Balanced.publish (h : l.Balanced capacity) (p : Program) :
    (l.step (.publish p)).Balanced capacity := by
  rcases Nat.lt_or_ge l.mailbox.pending l.mailbox.capacity with hlt | hge
  · have hstep : l.step (.publish p) =
        { l with
          mailbox := { l.mailbox with inbound := l.mailbox.inbound ++ [p], retired := [] }
          history := l.history ++ [p]
          freed := l.freed ++ l.mailbox.retired } := by
      simp only [step, Mailbox.publish_of_room hlt]
      rfl
    rw [hstep]
    refine ⟨h.capacity, ?_, ?_, ?_⟩
    · simp only [Mailbox.pending, List.length_append, List.length_cons, List.length_nil]
      exact hlt
    · simp [h.conserved, Mailbox.contents]
    · simp [h.installed]
  · have hstep : l.step (.publish p) =
        { l with
          mailbox := { l.mailbox with retired := [] }
          freed := l.freed ++ l.mailbox.retired } := by
      simp only [step, Mailbox.publish_of_full hge]
      rfl
    rw [hstep]
    refine ⟨h.capacity, Nat.le_trans (Nat.le_add_right _ _) h.room, ?_, h.installed⟩
    simp [h.conserved, Mailbox.contents]

theorem Balanced.refresh (h : l.Balanced capacity) : (l.step .refresh).Balanced capacity := by
  obtain ⟨hcontents, hlength⟩ := Mailbox.refreshing_of_room h.room (Nat.le_refl _)
  rw [← Mailbox.refresh_eq_refreshing] at hcontents hlength
  refine ⟨?_, ?_, ?_, ?_⟩
  · rw [step, Mailbox.capacity_refresh]
    exact h.capacity
  · have hroom := h.room
    rw [step, Mailbox.pending, Mailbox.inbound_refresh, Mailbox.capacity_refresh, hlength,
      List.length_nil]
    omega
  · rw [step, hcontents]
    exact h.conserved
  · rw [step, Mailbox.map_current_refreshing, Mailbox.inbound_refresh, List.append_nil]
    exact h.installed

theorem Balanced.reclaim (h : l.Balanced capacity) : (l.step .reclaim).Balanced capacity := by
  refine ⟨h.capacity, Nat.le_trans (Nat.le_add_right _ _) h.room, ?_, h.installed⟩
  simp [step, Mailbox.reclaim, h.conserved, Mailbox.contents]

theorem Balanced.step (h : l.Balanced capacity) (call : Mailbox.Call) :
    (l.step call).Balanced capacity := by
  cases call with
  | publish p => exact h.publish p
  | refresh => exact h.refresh
  | reclaim => exact h.reclaim

theorem Balanced.after (h : l.Balanced capacity) (calls : List Mailbox.Call) :
    (l.after calls).Balanced capacity := by
  induction calls generalizing l with
  | nil => exact h
  | cons call calls ih => exact ih (h.step call)

theorem Balanced.current_refresh (h : l.Balanced capacity) :
    l.mailbox.refresh.1.current = l.history.getLastD .empty := by
  rw [Mailbox.current_refresh, Mailbox.newest, h.conserved, Mailbox.contents, ← List.append_assoc]
  simp [List.getLastD_eq_getLast?, List.getLast?_cons]

/-- **Programs pass through a mailbox in order and none is lost**, whatever is asked of it. At every
moment, also when `k` of the programs that wait have been installed in the midst of refreshing,
each program of the history is taken back, retired, installed or waiting; it is installed and
retired in its turn, and whatever is retired finds room. A program is refused exactly if
the queue is full, and then handed back with queue and installed program as they were. -/
theorem after_balanced (capacity : Nat) (calls : List Mailbox.Call) :
    let l := (ofCapacity capacity).after calls
    let m := l.mailbox
    m.capacity = max capacity 1 ∧
      m.pending + m.retired.length ≤ m.capacity ∧
      l.history = l.installed ++ m.inbound ∧
      (∀ k ≤ m.pending, let m' := m.refreshing k
        l.history = l.freed ++ m'.retired ++ m'.current :: m'.inbound ∧
        (k < m.pending → m'.retired.length < m'.capacity + 1)) ∧
      (∀ p, (m.publish p).2 = (if m.pending = m.capacity then some p else none) ∧
        (m.pending = m.capacity →
          (m.publish p).1.inbound = m.inbound ∧ (m.publish p).1.current = m.current)) ∧
      m.refresh.1 = m.refreshing m.pending ∧
      m.refresh.1.current = l.history.getLastD .empty ∧
      m.refresh.1.pending = 0 ∧
      (m.refresh.2 = true ↔ m.pending ≠ 0) := by
  intro l m
  have h : l.Balanced capacity := (balanced_ofCapacity capacity).after calls
  refine ⟨h.capacity, h.room, h.installed, fun k hk => ⟨?_, fun hlt => ?_⟩, fun p => ?_,
    m.refresh_eq_refreshing, h.current_refresh, ?_, m.refresh_snd⟩
  · rw [List.append_assoc, h.conserved, ← (Mailbox.refreshing_of_room h.room hk).1]
    rfl
  · have hroom : m.pending + m.retired.length ≤ m.capacity := h.room
    rw [(Mailbox.refreshing_of_room hroom hk).2, Mailbox.capacity_refreshing]
    omega
  · rcases Nat.lt_or_ge m.pending m.capacity with hlt | hge
    · rw [Mailbox.publish_of_room hlt, if_neg (Nat.ne_of_lt hlt)]
      exact ⟨rfl, fun heq => absurd heq (Nat.ne_of_lt hlt)⟩
    · have hfull : m.pending = m.capacity :=
        Nat.le_antisymm (Nat.le_trans (Nat.le_add_right _ _) h.room) hge
      rw [Mailbox.publish_of_full hge, if_pos hfull]
      exact ⟨rfl, fun _ => ⟨rfl, rfl⟩⟩
  · rw [Mailbox.pending, Mailbox.inbound_refresh, List.length_nil]

end Ledger

end Bytebeat
