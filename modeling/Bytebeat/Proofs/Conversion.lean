import Bytebeat.Token.Infix

/-!
# Conversion from infix order

What the conversion does to any list of tokens, well-formed or not. Tokens
that wait are emitted from the top down (`releaseFor_spec`, `closeParen?_spec`,
`finish?_spec`); operands never wait, so that they come out in the order they
were read (`operands_of_postfixOfInfix`). All tokens but the parentheses come
out, each minus sign as it was read (`perm_of_postfixOfInfix`), and only of
balanced parentheses (`balanced_of_postfixOfInfix`).
-/

namespace Bytebeat

def Token.operand? : Token → Option Atom
  | atom a => some a
  | _ => none

def operands (ts : List Token) : List Atom := ts.filterMap Token.operand?

@[simp] theorem operands_nil : operands [] = [] := rfl

theorem operands_cons (t : Token) (ts : List Token) :
    operands (t :: ts) = t.operand?.toList ++ operands ts := by
  cases t <;> rfl

@[simp] theorem operands_append (ts us : List Token) :
    operands (ts ++ us) = operands ts ++ operands us := List.filterMap_append

theorem count_cons_eq_add (t u : Token) (ts : List Token) :
    (t :: ts).count u = [t].count u + ts.count u := by
  rw [← List.count_append, List.singleton_append]

theorem count_operands (ts : List Token) (a : Atom) :
    (operands ts).count a = ts.count (.atom a) := by
  induction ts with
  | nil => rfl
  | cons t ts ih =>
    rw [operands_cons, List.count_append, ih]
    cases t <;> simp [Token.operand?, List.count_cons, Nat.add_comm]

namespace Infix

/-! ## Emission -/

theorem releaseFor_spec (incoming : Token) (output waiting : List Token) :
    ∃ gone, .leftParen ∉ gone ∧ waiting = gone ++ (releaseFor incoming output waiting).2 ∧
      (releaseFor incoming output waiting).1 = gone.reverse ++ output := by
  induction waiting generalizing output with
  | nil => exact ⟨[], List.not_mem_nil, rfl, rfl⟩
  | cons top waiting ih =>
    unfold releaseFor
    split
    · rename_i hyields
      have htop : top ≠ .leftParen := by rintro rfl; cases hyields
      obtain ⟨gone, hp, hw, ho⟩ := ih (top :: output)
      exact ⟨top :: gone, by simp [hp, htop.symm], by rw [List.cons_append, ← hw], by simp [ho]⟩
    · exact ⟨[], List.not_mem_nil, rfl, rfl⟩

theorem closeParen?_spec {output waiting output' waiting' : List Token}
    (h : closeParen? output waiting = some (output', waiting')) :
    ∃ gone, .leftParen ∉ gone ∧ waiting = gone ++ .leftParen :: waiting' ∧
      output' = gone.reverse ++ output := by
  induction waiting generalizing output with
  | nil => cases h
  | cons top waiting ih =>
    unfold closeParen? at h
    split at h
    · rename_i htop
      cases h
      exact ⟨[], List.not_mem_nil, by rw [htop]; rfl, rfl⟩
    · rename_i htop
      obtain ⟨gone, hp, hw, ho⟩ := ih h
      exact ⟨top :: gone, by simp [hp, Ne.symm htop], by rw [hw]; rfl, by simp [ho]⟩

theorem finish?_spec {output waiting result : List Token}
    (h : finish? output waiting = some result) :
    .leftParen ∉ waiting ∧ result = waiting.reverse ++ output := by
  induction waiting generalizing output with
  | nil => cases h; exact ⟨List.not_mem_nil, rfl⟩
  | cons top waiting ih =>
    unfold finish? at h
    split at h
    · cases h
    · rename_i htop
      obtain ⟨hp, ho⟩ := ih h
      exact ⟨by simp [hp, Ne.symm htop], by simp [ho]⟩

/-! ## Operands -/

/-- A minus sign is no operand, however it is read. -/
theorem State.operand?_read (s : State) (t : Token) : (s.read t).operand? = t.operand? := by
  unfold State.read
  split
  · rename_i h; rw [h.1]; rfl
  · rfl

structure State.Emits (s : State) (seen : List Atom) : Prop where
  waiting : operands s.waiting = []
  output : operands s.output.reverse = seen

theorem State.Emits.step {s s' : State} {seen : List Atom} {position : Nat} {t : Token}
    (h : s.Emits seen) (hs : s.step position t = .ok s') : s'.Emits (seen ++ t.operand?.toList) := by
  obtain ⟨hw, ho⟩ := h
  rw [← s.operand?_read t]
  unfold State.step at hs
  generalize s.read t = t at hs ⊢
  cases t with
  | invalid => cases hs
  | atom a => cases hs; exact ⟨hw, by simp [operands_cons, ho, Token.operand?]⟩
  | leftParen | unary op =>
    cases hs
    exact ⟨by simp [operands_cons, Token.operand?, hw], by simp [ho, Token.operand?]⟩
  | binary op =>
    cases hs
    obtain ⟨gone, -, hgone, hout⟩ := releaseFor_spec (.binary op) s.output s.waiting
    rw [hgone, operands_append, List.append_eq_nil_iff] at hw
    exact ⟨by simp [operands_cons, Token.operand?, hw.2],
      by simp [hout, hw.1, ho, Token.operand?]⟩
  | rightParen =>
    simp only at hs
    split at hs
    · rename_i output waiting hclose
      cases hs
      obtain ⟨gone, -, hgone, hout⟩ := closeParen?_spec hclose
      rw [hgone, operands_append, List.append_eq_nil_iff] at hw
      exact ⟨by simpa [operands_cons, Token.operand?] using hw.2,
        by simp [hout, hw.1, ho, Token.operand?]⟩
    · cases hs

theorem State.Emits.run {ts : List Token} :
    ∀ {s s' : State} {seen : List Atom} {position : Nat}, s.Emits seen →
      State.run position s ts = .ok s' → s'.Emits (seen ++ operands ts) := by
  induction ts with
  | nil =>
    intro s s' seen position h hrun
    cases hrun
    rwa [operands_nil, List.append_nil]
  | cons t ts ih =>
    intro s s' seen position h hrun
    unfold State.run at hrun
    split at hrun
    · rename_i hs
      rw [operands_cons, ← List.append_assoc]
      exact ih (h.step hs) hrun
    · cases hrun

end Infix

theorem operands_of_postfixOfInfix {ts us : List Token} (h : postfixOfInfix ts = .ok us) :
    operands us = operands ts := by
  unfold postfixOfInfix at h
  split at h
  · cases h
  · rename_i s hrun
    have hs : s.Emits (operands ts) := Infix.State.Emits.run ⟨rfl, rfl⟩ hrun
    split at h
    · rename_i output hfinish
      cases h
      obtain ⟨-, rfl⟩ := Infix.finish?_spec hfinish
      simp [hs.waiting, hs.output]
    · cases h

namespace Infix

/-! ## Readings -/

def expectsAfter : Token → Bool
  | .atom _ | .rightParen => false
  | _ => true

/-- The tokens with each minus sign taken for a negation where an operand is expected; `expects`
tells whether one is expected at the start. -/
def readings (expects : Bool) : List Token → List Token
  | [] => []
  | t :: ts => State.read { expectsOperand := expects } t :: readings (expectsAfter t) ts

theorem State.expectsOperand_of_step {s s' : State} {position : Nat} {t : Token}
    (hs : s.step position t = .ok s') : s'.expectsOperand = expectsAfter t := by
  unfold State.step State.read at hs
  split at hs
  · rename_i h
    rw [h.1]
    cases hs
    rfl
  · cases t with
    | invalid => cases hs
    | atom a | leftParen | unary op | binary op => cases hs; rfl
    | rightParen =>
      simp only at hs
      split at hs
      · cases hs; rfl
      · cases hs

/-- Parentheses are read as they are, and nothing else as one. -/
theorem State.read_eq_iff (s : State) (t : Token) {u : Token}
    (hu : u.arity = .structural) : s.read t = u ↔ t = u := by
  unfold State.read
  split
  · rename_i h
    rw [h.1]
    constructor <;> (rintro rfl; cases hu)
  · exact Iff.rfl

theorem State.count_read (s : State) (t : Token) {u : Token} (hu : u.arity = .structural) :
    [s.read t].count u = [t].count u := by
  simp only [List.count_cons, List.count_nil, beq_iff_eq, s.read_eq_iff t hu]

theorem mem_readings {u : Token} (hu : u.arity = .structural) (expects : Bool) (ts : List Token) :
    u ∈ readings expects ts ↔ u ∈ ts := by
  induction ts generalizing expects with
  | nil => exact Iff.rfl
  | cons t ts ih =>
    rw [readings, List.mem_cons, List.mem_cons, ih, eq_comm, State.read_eq_iff _ _ hu, eq_comm]

theorem count_readings {u : Token} (hu : u.arity = .structural) (expects : Bool)
    (ts : List Token) : (readings expects ts).count u = ts.count u := by
  induction ts generalizing expects with
  | nil => rfl
  | cons t ts ih =>
    rw [readings, count_cons_eq_add, count_cons_eq_add t, ih, State.count_read _ _ hu]

/-- What a conversion holds after it has read the tokens `seen`: all of them that can stand in a
program, and the parentheses that are still open. -/
structure State.Holds (s : State) (seen : List Token) : Prop where
  output : ∀ t ∈ s.output, t.isExecutable = true
  waiting : ∀ t ∈ s.waiting, t = .leftParen ∨ t.isExecutable = true
  perm : ((s.waiting ++ s.output).filter Token.isExecutable).Perm (seen.filter Token.isExecutable)
  parens : s.waiting.count .leftParen + seen.count .rightParen = seen.count .leftParen
  valid : .invalid ∉ seen

theorem perm_emit {α : Type} (gone waiting output : List α) :
    (waiting ++ (gone.reverse ++ output)).Perm (gone ++ waiting ++ output) := by
  rw [← List.append_assoc]
  exact (List.perm_append_comm.trans ((List.reverse_perm gone).append_right _)).append_right _

theorem perm_filter_snoc {α : Type} {p : α → Bool} {xs ys : List α}
    (h : (xs.filter p).Perm (ys.filter p)) (a : α) :
    ((a :: xs).filter p).Perm ((ys ++ [a]).filter p) := by
  have hswap : ([a] ++ ys).Perm (ys ++ [a]) := List.perm_append_comm
  refine .trans ?_ (hswap.filter _)
  rw [← List.singleton_append, List.filter_append, List.filter_append _ ys]
  exact h.append_left _

/-- Emitting operators that wait changes nothing about what is held. -/
theorem State.Holds.emit {s : State} {seen gone waiting : List Token} (h : s.Holds seen)
    (hp : .leftParen ∉ gone) (hw : s.waiting = gone ++ waiting) (expects : Bool) :
    State.Holds ⟨gone.reverse ++ s.output, waiting, expects⟩ seen := by
  obtain ⟨ho, hwait, hperm, hparens, hvalid⟩ := h
  rw [hw] at hwait hperm hparens
  refine ⟨fun u hu => ?_, fun u hu => hwait u (List.mem_append_right _ hu), ?_, ?_, hvalid⟩
  · rcases List.mem_append.1 hu with hu | hu
    · rw [List.mem_reverse] at hu
      exact (hwait u (List.mem_append_left _ hu)).resolve_left fun heq => hp (heq ▸ hu)
    · exact ho u hu
  · exact ((perm_emit gone waiting s.output).filter _).trans hperm
  · simpa [List.count_eq_zero_of_not_mem hp] using hparens

theorem State.Holds.perm_cons {s : State} {seen : List Token} (h : s.Holds seen) (t : Token) :
    ((t :: (s.waiting ++ s.output)).filter Token.isExecutable).Perm
      ((seen ++ [t]).filter Token.isExecutable) := perm_filter_snoc h.perm t

theorem State.Holds.wait {s : State} {seen : List Token} (h : s.Holds seen) {t : Token}
    (ht : t = .leftParen ∨ t.isExecutable = true) (expects : Bool) :
    State.Holds ⟨s.output, t :: s.waiting, expects⟩ (seen ++ [t]) := by
  have hright : t ≠ .rightParen := by rintro rfl; rcases ht with h | h <;> cases h
  have hinvalid : t ≠ .invalid := by rintro rfl; rcases ht with h | h <;> cases h
  refine ⟨h.output, List.forall_mem_cons.2 ⟨ht, h.waiting⟩, h.perm_cons t, ?_,
    by simp [h.valid, hinvalid.symm]⟩
  have hparens := h.parens
  simp only [List.count_append, List.count_cons, List.count_nil, beq_iff_eq, hright, if_false]
  omega

theorem State.Holds.step {s s' : State} {seen : List Token} {position : Nat} {t : Token}
    (h : s.Holds seen) (hs : s.step position t = .ok s') : s'.Holds (seen ++ [s.read t]) := by
  unfold State.step at hs
  generalize s.read t = t at hs ⊢
  cases t with
  | invalid => cases hs
  | atom a =>
    cases hs
    exact ⟨List.forall_mem_cons.2 ⟨rfl, h.output⟩, h.waiting,
      (List.perm_middle.filter _).trans (h.perm_cons _), by simpa using h.parens,
      by simpa using h.valid⟩
  | unary op => cases hs; exact h.wait (.inr rfl) true
  | leftParen => cases hs; exact h.wait (.inl rfl) true
  | binary op =>
    cases hs
    obtain ⟨gone, hp, hgone, hout⟩ := releaseFor_spec (.binary op) s.output s.waiting
    rw [hout]
    exact (h.emit hp hgone true).wait (.inr rfl) true
  | rightParen =>
    simp only at hs
    split at hs
    · rename_i output waiting hclose
      cases hs
      obtain ⟨gone, hp, hgone, rfl⟩ := closeParen?_spec hclose
      obtain ⟨ho, hwait, hperm, hparens, hvalid⟩ := h.emit hp hgone false
      refine ⟨ho, fun u hu => hwait u (List.mem_cons_of_mem _ hu), ?_, ?_, by simpa using hvalid⟩
      · simpa [Token.isExecutable, Token.arity] using hperm
      · simp at hparens ⊢
        omega
    · cases hs

theorem State.Holds.run {ts : List Token} :
    ∀ {s s' : State} {seen : List Token} {position : Nat}, s.Holds seen →
      State.run position s ts = .ok s' → s'.Holds (seen ++ readings s.expectsOperand ts) := by
  induction ts with
  | nil =>
    intro s s' seen position h hrun
    cases hrun
    rwa [readings, List.append_nil]
  | cons t ts ih =>
    intro s s' seen position h hrun
    unfold State.run at hrun
    split at hrun
    · rename_i s₁ hs
      have hrest := ih (h.step hs) hrun
      rwa [State.expectsOperand_of_step hs, List.append_assoc, List.singleton_append] at hrest
    · cases hrun

theorem State.run_append (ts us : List Token) :
    ∀ (position : Nat) (s : State), State.run position s (ts ++ us) =
      match State.run position s ts with
      | .ok s' => s'.run (position + ts.length) us
      | .error e => .error e := by
  induction ts with
  | nil => exact fun _ _ => rfl
  | cons t ts ih =>
    intro position s
    rw [List.cons_append, State.run, State.run]
    cases s.step position t with
    | error e => rfl
    | ok s' =>
      rw [List.length_cons, Nat.add_comm ts.length 1, ← Nat.add_assoc]
      exact ih _ _

theorem State.run_append_eq_ok {ts us : List Token} {position : Nat} {s s' : State}
    (hrun : State.run position s (ts ++ us) = .ok s') :
    ∃ s₁, State.run position s ts = .ok s₁ := by
  rw [State.run_append] at hrun
  split at hrun
  · exact ⟨_, ‹_›⟩
  · cases hrun

/-! ## Parentheses -/

/-- No parenthesis closes before it is opened, and all that are opened are closed. -/
structure Balanced (ts : List Token) : Prop where
  closed_le : ∀ us, us <+: ts → us.count .rightParen ≤ us.count .leftParen
  closed_eq : ts.count .rightParen = ts.count .leftParen

theorem State.holds_start : ({} : State).Holds [] := ⟨nofun, nofun, .refl _, rfl, List.not_mem_nil⟩

theorem closed_le_of_run {us vs : List Token} {position : Nat} {s : State}
    (hrun : State.run position {} (us ++ vs) = .ok s) :
    us.count .rightParen ≤ us.count .leftParen := by
  obtain ⟨s₁, hrun₁⟩ := State.run_append_eq_ok hrun
  have hparens := (State.holds_start.run hrun₁).parens
  rw [List.nil_append, count_readings rfl, count_readings rfl] at hparens
  omega

theorem exists_holds_of_postfixOfInfix {ts us : List Token} (h : postfixOfInfix ts = .ok us) :
    ∃ s, State.run 0 {} ts = .ok s ∧ State.Holds ⟨us.reverse, [], true⟩ (readings true ts) := by
  unfold postfixOfInfix at h
  split at h
  · cases h
  · rename_i s hrun
    split at h
    · rename_i output hfinish
      cases h
      obtain ⟨hp, rfl⟩ := finish?_spec hfinish
      rw [List.reverse_reverse]
      exact ⟨s, hrun, (State.holds_start.run hrun).emit hp (List.append_nil _).symm true⟩
    · cases h

end Infix

theorem balanced_of_postfixOfInfix {ts us : List Token} (h : postfixOfInfix ts = .ok us) :
    Infix.Balanced ts := by
  obtain ⟨s, hrun, hs⟩ := Infix.exists_holds_of_postfixOfInfix h
  constructor
  · rintro done ⟨rest, rfl⟩
    exact Infix.closed_le_of_run hrun
  · have hparens := hs.parens
    rwa [Infix.count_readings rfl, Infix.count_readings rfl, List.count_nil, Nat.zero_add]
      at hparens

theorem invalid_not_mem_of_postfixOfInfix {ts us : List Token} (h : postfixOfInfix ts = .ok us) :
    .invalid ∉ ts := by
  obtain ⟨s, -, hs⟩ := Infix.exists_holds_of_postfixOfInfix h
  rw [← Infix.mem_readings rfl true]
  exact hs.valid

theorem perm_of_postfixOfInfix {ts us : List Token} (h : postfixOfInfix ts = .ok us) :
    us.Perm ((Infix.readings true ts).filter Token.isExecutable) := by
  obtain ⟨s, -, hs⟩ := Infix.exists_holds_of_postfixOfInfix h
  have hperm := hs.perm
  rw [List.nil_append, List.filter_eq_self.2 hs.output] at hperm
  exact (List.reverse_perm us).symm.trans hperm

end Bytebeat
