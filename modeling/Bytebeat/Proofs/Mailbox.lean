import Bytebeat.Mailbox

/-!
# What a mailbox hands over

The program that a mailbox will have installed once all that wait are installed
is its newest. Publishing makes the program published the newest or hands it
back; refreshing installs the newest and leaves none to wait.
-/

namespace Bytebeat.Mailbox

/-- The last of the programs that wait, or the one installed if none waits. -/
def newest (m : Mailbox) : Program := m.inbound.getLastD m.current

/-! ## Publishing -/

theorem publish_of_room {m : Mailbox} (h : m.pending < m.capacity) (p : Program) :
    m.publish p = ({ m with inbound := m.inbound ++ [p], retired := [] }, none) :=
  if_pos h

theorem publish_of_full {m : Mailbox} (h : m.capacity ≤ m.pending) (p : Program) :
    m.publish p = ({ m with retired := [] }, some p) :=
  if_neg (Nat.not_lt.2 h)

theorem getD_publish (m : Mailbox) (p : Program) :
    (m.publish p).2.getD (m.publish p).1.newest = p := by
  rcases Nat.lt_or_ge m.pending m.capacity with h | h
  · rw [publish_of_room h, newest, List.getLastD_concat]
    rfl
  · rw [publish_of_full h]
    rfl

theorem newest_publish (m : Mailbox) (p : Program) :
    (m.publish p).1.newest = if (m.publish p).2.isSome then m.newest else p := by
  rcases Nat.lt_or_ge m.pending m.capacity with h | h
  · rw [publish_of_room h, newest, List.getLastD_concat]
    rfl
  · rw [publish_of_full h]
    rfl

@[simp] theorem capacity_publish (m : Mailbox) (p : Program) :
    (m.publish p).1.capacity = m.capacity := by
  rcases Nat.lt_or_ge m.pending m.capacity with h | h
  · rw [publish_of_room h]
  · rw [publish_of_full h]

/-! ## Refreshing -/

theorem foldl_install (ps : List Program) (m : Mailbox) (changed : Bool) :
    let after := ps.foldl (fun (m, _) p => (m.install p, true)) (m, changed)
    after.1.current = ps.getLastD m.current ∧ after.1.inbound = m.inbound ∧
      after.1.capacity = m.capacity ∧ after.2 = (changed || !ps.isEmpty) := by
  induction ps generalizing m changed with
  | nil => simp
  | cons p ps ih =>
    have hretire : (m.retire m.current).inbound = m.inbound ∧
        (m.retire m.current).capacity = m.capacity := by
      rw [retire]
      split <;> exact ⟨rfl, rfl⟩
    obtain ⟨hcurrent, hinbound, hcapacity, hchanged⟩ := ih (m.install p) true
    refine ⟨hcurrent.trans ?_, hinbound.trans hretire.1, hcapacity.trans hretire.2,
      hchanged.trans ?_⟩
    · rw [List.getLastD_cons, install]
    · simp

@[simp] theorem current_refresh (m : Mailbox) : m.refresh.1.current = m.newest :=
  (foldl_install m.inbound _ _).1

@[simp] theorem inbound_refresh (m : Mailbox) : m.refresh.1.inbound = [] :=
  (foldl_install m.inbound _ _).2.1

@[simp] theorem capacity_refresh (m : Mailbox) : m.refresh.1.capacity = m.capacity :=
  (foldl_install m.inbound _ _).2.2.1

@[simp] theorem newest_refresh (m : Mailbox) : m.refresh.1.newest = m.newest := by
  rw [newest, inbound_refresh, current_refresh]
  rfl

theorem publish_refresh {m : Mailbox} (h : 0 < m.capacity) (p : Program) :
    (m.refresh.1.publish p).2 = none ∧ (m.refresh.1.publish p).1.newest = p := by
  have hroom : m.refresh.1.pending < m.refresh.1.capacity := by
    rw [pending, inbound_refresh, capacity_refresh]
    exact h
  have hp := m.refresh.1.getD_publish p
  rw [publish_of_room hroom] at hp ⊢
  exact ⟨rfl, hp⟩

end Bytebeat.Mailbox
