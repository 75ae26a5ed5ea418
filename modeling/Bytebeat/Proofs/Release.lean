import Bytebeat.Proofs.Grammar
import Mathlib.Data.List.Basic

/-!
# Where operators are released

The conversion from infix order without its stack. An operator is put behind
all that stands before the first operator of its own parentheses that it yields
to, or before the closing parenthesis or the end if it yields to none
(`Released`). Tokens are converted exactly to the order in which they are
released (`postfixOfInfix_eq_ok_iff`), whether or not they are an expression.
-/

namespace Bytebeat

namespace Infix

/-- The token is an operator, and if it is a binary one, it is among `free`. -/
def IsOperator (free : BinaryOp → Prop) : Token → Prop
  | .unary _ => True
  | .binary op => free op
  | _ => False

/-- The operator `t` is released before the tokens `ts`, which start with one that it yields to
unless they are none. -/
def ReleasedBefore (t : Token) (ts : List Token) : Prop :=
  ∀ next ∈ ts.head?, ∃ op, next = .binary op ∧ yields t next = true

/-- The tokens `ts` are released in the order `us`. Of the binary operators, only those among
`free` stand outside of parentheses. -/
inductive Released : (BinaryOp → Prop) → List Token → List Token → Prop where
  | nil {free : BinaryOp → Prop} : Released free [] []
  | operand {free : BinaryOp → Prop} {ts us : List Token} (a : Atom) :
      Released free ts us → Released free (.atom a :: ts) (.atom a :: us)
  | parens {free : BinaryOp → Prop} {inner ts us vs : List Token} :
      Released (fun _ => True) inner us → Released free ts vs →
      Released free (.leftParen :: inner ++ .rightParen :: ts) (us ++ vs)
  | operator {free : BinaryOp → Prop} {t : Token} {held ts us vs : List Token} :
      IsOperator free t →
      Released (fun op => free op ∧ yields t (.binary op) = false) held us →
      ReleasedBefore t ts → Released free ts vs →
      Released free (t :: held ++ ts) (us ++ t :: vs)

variable {free : BinaryOp → Prop} {t u : Token} {ts us vs : List Token} {op : BinaryOp}

theorem Released.eq_nil (h : Released free ts us) (hts : ts = []) : us = [] := by
  cases h with
  | nil => rfl
  | operand _ _ | parens _ _ | operator _ _ _ _ => cases hts

theorem Released.free_of_binary (h : Released free us vs) (hus : us = .binary op :: ts) :
    free op := by
  cases h with
  | operator ht _ _ _ => cases hus; exact ht
  | nil | operand _ _ | parens _ _ => cases hus

/-! ## Operators that are released together -/

theorem IsOperator.ne_leftParen (h : IsOperator free t) : t ≠ .leftParen := by
  rintro rfl
  exact h

theorem IsOperator.mono {free' : BinaryOp → Prop} (h : IsOperator free t)
    (hfree : ∀ op, free op → free' op) : IsOperator free' t := by
  cases t with
  | unary op => trivial
  | binary op => exact hfree op h
  | atom _ | leftParen | rightParen | invalid => exact h

theorem IsOperator.yields (h : IsOperator (fun op => free op ∧ yields t (.binary op) = false) u)
    (hop : Infix.yields t (.binary op) = true) :
    Infix.yields u (.binary op) = true := by
  have hthree := op.three_le_precedence
  cases u with
  | unary op' =>
    have htight : 2 < op.precedence := by omega
    simp [Infix.yields, Token.precedence, htight]
  | binary op' =>
    have hrests := h.2
    simp only [Infix.yields, Token.precedence, Token.associativity,
      BinaryOp.associativity_eq] at hrests hop ⊢
    grind
  | atom _ | leftParen | rightParen | invalid => exact h.elim

/-! ## Readings -/

theorem State.read_read (s : State) (t : Token) : s.read (s.read t) = s.read t := by
  by_cases h : t = .binary .subtract ∧ s.expectsOperand = true
  · simp [read, h]
  · simp only [read, if_neg h]

theorem length_readings (expects : Bool) (ts : List Token) :
    (readings expects ts).length = ts.length := by
  induction ts generalizing expects with
  | nil => rfl
  | cons t ts ih => rw [readings, List.length_cons, List.length_cons, ih]

theorem State.step_read (s : State) (position : Nat) (t : Token) :
    s.step position (s.read t) = s.step position t := by
  simp only [State.step, s.read_read]

theorem expectsAfter_read (s : State) (t : Token) : expectsAfter (s.read t) = expectsAfter t := by
  unfold State.read
  split
  · rename_i h
    rw [h.1]
    rfl
  · rfl

theorem readings_readings (expects : Bool) (ts : List Token) :
    readings expects (readings expects ts) = readings expects ts := by
  induction ts generalizing expects with
  | nil => rfl
  | cons t ts ih => rw [readings, readings, State.read_read, expectsAfter_read, ih]

theorem State.run_readings (ts : List Token) :
    ∀ (position : Nat) (s : State),
      State.run position s (readings s.expectsOperand ts) = State.run position s ts := by
  induction ts with
  | nil => exact fun _ _ => rfl
  | cons t ts ih =>
    intro position s
    have hread : s.step position (State.read { expectsOperand := s.expectsOperand } t) =
        s.step position t := s.step_read position t
    rw [readings, State.run, State.run, hread]
    cases hs : s.step position t with
    | error e => rfl
    | ok s' =>
      have hexpects := State.expectsOperand_of_step hs
      simp only [← hexpects, ih]

theorem State.expectsOperand_of_run {position : Nat} {s s' : State}
    (hrun : State.run position s ts = .ok s') :
    s'.expectsOperand = ts.foldl (fun _ t => expectsAfter t) s.expectsOperand := by
  induction ts generalizing position s with
  | nil => cases hrun; rfl
  | cons t ts ih =>
    unfold State.run at hrun
    split at hrun
    · rename_i s₁ hs
      rw [ih hrun, State.expectsOperand_of_step hs]
      rfl
    · cases hrun

theorem readings_append (expects : Bool) (ts us : List Token) :
    readings expects (ts ++ us) =
      readings expects ts ++ readings (ts.foldl (fun _ t => expectsAfter t) expects) us := by
  induction ts generalizing expects with
  | nil => rfl
  | cons t ts ih => exact congrArg (List.cons _) (ih _)

/-- Read from the state `s`, the tokens are as they stand. -/
def State.ReadsAs (s : State) (ts : List Token) : Prop := readings s.expectsOperand ts = ts

theorem State.ReadsAs.head {s : State} (h : s.ReadsAs (t :: ts)) : s.read t = t :=
  (List.cons.inj h).1

theorem State.ReadsAs.tail {s s' : State} {position : Nat} (h : s.ReadsAs (t :: ts))
    (hs : s.step position t = .ok s') : s'.ReadsAs ts := by
  rw [ReadsAs, State.expectsOperand_of_step hs]
  exact (List.cons.inj h).2

theorem State.ReadsAs.left {s : State} (h : s.ReadsAs (ts ++ us)) : s.ReadsAs ts := by
  rw [ReadsAs, readings_append] at h
  exact List.append_inj_left h (length_readings _ _)

theorem State.ReadsAs.right {s s' : State} {position : Nat} (h : s.ReadsAs (ts ++ us))
    (hrun : State.run position s ts = .ok s') : s'.ReadsAs us := by
  rw [ReadsAs, readings_append] at h
  rw [ReadsAs, State.expectsOperand_of_run hrun]
  exact List.append_inj_right h (length_readings _ _)

/-! ## What is released is converted -/

theorem Rests.releaseFor_eq {waiting : List Token} (hw : Rests waiting op)
    (output : List Token) : releaseFor (.binary op) output waiting = (output, waiting) :=
  @Infix.releaseFor_eq op [] waiting nofun hw output

/-- What waits above tokens that rest is released by the first binary operator that it yields to. -/
theorem State.run_release {held waiting : List Token}
    (hh : ∀ t ∈ held, yields t (.binary op) = true) (hw : Rests waiting op) {output : List Token}
    {expects : Bool} (hread : State.ReadsAs ⟨output, held ++ waiting, expects⟩ (.binary op :: ts))
    (position : Nat) :
    State.run position ⟨output, held ++ waiting, expects⟩ (.binary op :: ts) =
      State.run position ⟨held.reverse ++ output, waiting, expects⟩ (.binary op :: ts) := by
  have hread' : State.read ⟨held.reverse ++ output, waiting, expects⟩ (.binary op) = .binary op :=
    hread.head
  simp only [State.run, State.step, hread.head, hread', releaseFor_eq hh hw, hw.releaseFor_eq]

theorem IsOperator.step {s : State} (h : IsOperator free t) (hread : s.read t = t)
    (hrests : ∀ op, free op → Rests s.waiting op) (position : Nat) :
    s.step position t = .ok ⟨s.output, t :: s.waiting, true⟩ := by
  cases t with
  | unary op => rfl
  | binary op =>
    simp only [State.step, hread, (hrests op h).releaseFor_eq]
  | atom _ | leftParen | rightParen | invalid => exact h.elim

/-- Read where no operator among `free` releases what waits, the tokens `ts` are put out in the
order `us`, the last of them once what is left waiting is released. -/
def PutsOut (free : BinaryOp → Prop) (ts us : List Token) : Prop :=
  ∀ (position : Nat) (s : State), s.ReadsAs ts → (∀ op, free op → Rests s.waiting op) →
    ∃ held output expects,
      State.run position s ts = .ok ⟨output, held ++ s.waiting, expects⟩ ∧
      held.reverse ++ output = us.reverse ++ s.output ∧ ∀ t ∈ held, IsOperator free t

theorem PutsOut.nil : PutsOut free [] [] := fun _ _ _ _ => ⟨[], _, _, rfl, rfl, nofun⟩

theorem PutsOut.operand (h : PutsOut free ts us) (a : Atom) :
    PutsOut free (.atom a :: ts) (.atom a :: us) := by
  intro position s hread hrests
  have hs : s.step position (.atom a) = .ok ⟨.atom a :: s.output, s.waiting, false⟩ := rfl
  obtain ⟨held, output, expects, hrun, hout, hheld⟩ := h (position + 1) _ (hread.tail hs) hrests
  refine ⟨held, output, expects, ?_, ?_, hheld⟩
  · rw [State.run_cons_of_step hs, hrun]
  · simp [hout]

theorem PutsOut.parens {inner : List Token} (hinner : PutsOut (fun _ => True) inner us)
    (h : PutsOut free ts vs) :
    PutsOut free (.leftParen :: inner ++ .rightParen :: ts) (us ++ vs) := by
  intro position s hread hrests
  have hopen : s.step position .leftParen = .ok ⟨s.output, .leftParen :: s.waiting, true⟩ := rfl
  rw [List.cons_append] at hread ⊢
  have hreads := hread.tail hopen
  obtain ⟨held, output, expects, hrun, hout, hheld⟩ :=
    hinner (position + 1) _ hreads.left fun op _ top htop => by cases htop; rfl
  have hclose : ∀ position, State.step position .rightParen
      ⟨output, held ++ .leftParen :: s.waiting, expects⟩ =
        .ok ⟨us.reverse ++ s.output, s.waiting, false⟩ := by
    intro position
    rw [← hout]
    have hclosed := closeParen?_eq (fun t ht => (hheld t ht).ne_leftParen) output s.waiting
    simp [State.step, State.read, hclosed]
  obtain ⟨held', output', expects', hrun', hout', hheld'⟩ :=
    h (position + 1 + inner.length + 1) _
      ((hreads.right hrun).tail (hclose (position + 1 + inner.length))) hrests
  refine ⟨held', output', expects', ?_, by simp [hout'], hheld'⟩
  rw [State.run_cons_of_step hopen, State.run_append, hrun]
  simp only [State.run_cons_of_step (hclose _), hrun']

/-- An operator and what it holds are left waiting together, and released together. -/
theorem PutsOut.held {held : List Token} (ht : IsOperator free t)
    (hheld : PutsOut (fun op => free op ∧ yields t (.binary op) = false) held us) {position : Nat}
    {s : State} (hread : s.ReadsAs (t :: held ++ ts))
    (hrests : ∀ op, free op → Rests s.waiting op) :
    ∃ waits output expects,
      State.run position s (t :: held ++ ts) =
        State.run (position + 1 + held.length) ⟨output, waits ++ s.waiting, expects⟩ ts ∧
      waits.reverse ++ output = (us ++ [t]).reverse ++ s.output ∧
      State.ReadsAs ⟨output, waits ++ s.waiting, expects⟩ ts ∧
      (∀ u ∈ waits, IsOperator free u) ∧
      ∀ op, yields t (.binary op) = true → ∀ u ∈ waits, yields u (.binary op) = true := by
  rw [List.cons_append] at hread ⊢
  have hs := ht.step hread.head hrests position
  have hwait := hread.tail hs
  obtain ⟨waits, output, expects, hrun, hout, hwaits⟩ :=
    hheld (position + 1) _ hwait.left fun op hop top htop => by cases htop; exact hop.2
  have hsplit : waits ++ t :: s.waiting = waits ++ [t] ++ s.waiting := by simp
  have hreads := hwait.right hrun
  simp only [hsplit] at hrun hreads
  refine ⟨waits ++ [t], output, expects, ?_, by simp [hout], hreads, ?_, ?_⟩
  · rw [State.run_cons_of_step hs, State.run_append, hrun]
  · rw [List.forall_mem_append]
    exact ⟨fun u hu => (hwaits u hu).mono fun _ h => h.1, List.forall_mem_singleton.2 ht⟩
  · intro op hop
    rw [List.forall_mem_append]
    exact ⟨fun u hu => (hwaits u hu).yields hop, List.forall_mem_singleton.2 hop⟩

theorem PutsOut.operator {held : List Token} (ht : IsOperator free t)
    (hheld : PutsOut (fun op => free op ∧ yields t (.binary op) = false) held us)
    (hbefore : ReleasedBefore t ts) (hts : Released free ts vs) (h : PutsOut free ts vs) :
    PutsOut free (t :: held ++ ts) (us ++ t :: vs) := by
  intro position s hread hrests
  obtain ⟨waits, output, expects, hrun, hout, hreads, hwaits, hgone⟩ :=
    hheld.held ht hread hrests
  rw [hrun]
  cases ts with
  | nil =>
    obtain rfl := hts.eq_nil rfl
    exact ⟨waits, output, expects, rfl, hout, hwaits⟩
  | cons next ts =>
    obtain ⟨op, rfl, hyields⟩ := hbefore next rfl
    obtain ⟨waits', output', expects', hrun', hout', hwaits'⟩ :=
      h (position + 1 + held.length) ⟨waits.reverse ++ output, s.waiting, expects⟩ hreads hrests
    refine ⟨waits', output', expects', ?_, ?_, hwaits'⟩
    · rw [State.run_release (hgone op hyields) (hrests op (hts.free_of_binary rfl)) hreads, hrun']
    · rw [hout', hout]
      simp

theorem Released.putsOut (h : Released free ts us) : PutsOut free ts us := by
  induction h with
  | nil => exact .nil
  | operand a _ ih => exact ih.operand a
  | parens _ _ ihinner ihrest => exact ihinner.parens ihrest
  | operator ht _ hbefore hts ihheld ihrest => exact ihheld.operator ht hbefore hts ihrest

theorem postfixOfInfix_of_released (h : Released (fun _ => True) (readings true ts) us) :
    postfixOfInfix ts = .ok us := by
  have hread : ({} : State).ReadsAs (readings true ts) := readings_readings true ts
  obtain ⟨held, output, expects, hrun, hout, hheld⟩ :=
    h.putsOut 0 {} hread fun op _ top htop => nomatch htop
  rw [State.run_readings ts 0 {}, List.append_nil] at hrun
  have hfinish := finish?_eq (fun t ht => (hheld t ht).ne_leftParen) output
  rw [hout, List.append_nil] at hfinish
  simp only [postfixOfInfix, hrun, hfinish, List.reverse_reverse]

/-! ## What is converted is released -/

/-- The tokens are none, or start with one before which no operator but those among `free` can be
released. -/
def Stops (free : BinaryOp → Prop) (ts : List Token) : Prop :=
  ∀ next ∈ ts.head?, next = .rightParen ∨ ∃ op, next = .binary op ∧ ¬free op

theorem Stops.of_mem {next : Token} (hnext : next ∈ ts.head?)
    (h : next = .rightParen ∨ ∃ op, next = .binary op ∧ ¬free op) : Stops free ts :=
  fun _ hhead => Option.mem_unique hnext hhead ▸ h

/-- The tokens `held` are released and those in `rest` follow, which close `depth` parentheses
opened before. -/
structure Taken (free : BinaryOp → Prop) (depth : Nat) (ts held rest us : List Token) : Prop where
  split : ts = held ++ rest
  released : Released free held us
  stops : Stops free rest
  closes : Closes depth rest

theorem Taken.nil {depth : Nat} (hstops : Stops free ts) (hclose : Closes depth ts) :
    Taken free depth ts [] ts [] :=
  ⟨rfl, .nil, hstops, hclose⟩

/-- An operator holds all that does not release it, and what is left follows it. -/
theorem Taken.operator {depth : Nat} {held rest : List Token} (ht : IsOperator free t)
    (h : Taken (fun op => free op ∧ yields t (.binary op) = false) depth ts held rest us)
    (hrest : ∃ held' rest' vs, Taken free depth rest held' rest' vs) :
    ∃ held' rest' vs, Taken free depth (t :: ts) held' rest' vs := by
  obtain ⟨rfl, hheld, hstops, hclose⟩ := h
  by_cases hfree : Stops free rest
  · have hreleased := Released.operator ht hheld (fun _ h => by cases h) .nil
    exact ⟨_, rest, _, by simp, hreleased, hfree, hclose⟩
  obtain ⟨held', rest', vs, rfl, hheld', hstops', hclose'⟩ := hrest
  have hbefore : ReleasedBefore t held' := by
    intro next hnext
    have hhead : next ∈ (held' ++ rest').head? :=
      List.mem_head?_append_of_mem_head? hnext
    rcases hstops next hhead with hparen | ⟨op, rfl, hnot⟩
    · exact absurd (.of_mem hhead (.inl hparen)) hfree
    · refine ⟨op, rfl, Bool.not_eq_false _ ▸ fun hyields => hfree (.of_mem hhead ?_)⟩
      exact .inr ⟨op, rfl, fun hop => hnot ⟨hop, hyields⟩⟩
  exact ⟨_, rest', _, by simp, .operator ht hheld hbefore hheld', hstops', hclose'⟩

theorem Taken.parens {depth : Nat} {inner rest : List Token}
    (h : Taken (fun _ => True) (depth + 1) ts inner rest us) :
    ∃ ts', rest = .rightParen :: ts' ∧ Closes depth ts' := by
  obtain ⟨rfl, -, hstops, hclose⟩ := h
  cases rest with
  | nil => exact absurd hclose.closed_eq (Nat.succ_ne_zero _).symm
  | cons next ts' =>
    rcases hstops next rfl with rfl | ⟨_, _, hnot⟩
    · obtain ⟨outer, houter, hclose⟩ := closes_rightParen_iff.1 hclose
      cases houter
      exact ⟨ts', rfl, hclose⟩
    · exact absurd trivial hnot

/-- As many tokens as can be released are taken, up to an operator that is not free or to a
parenthesis that was opened before. The induction is on their number, since what an operator holds
and what follows it are both taken in turn. -/
theorem exists_taken (ts : List Token) :
    ∀ (free : BinaryOp → Prop) (depth : Nat), .invalid ∉ ts → Closes depth ts →
      ∃ held rest us, Taken free depth ts held rest us := by
  induction hn : ts.length using Nat.strongRecOn generalizing ts with
  | ind n ih =>
    subst hn
    intro free depth hvalid hclose
    cases ts with
    | nil => exact ⟨_, _, _, .nil nofun hclose⟩
    | cons t ts =>
      rw [List.mem_cons, not_or] at hvalid
      have htail := ih ts.length (Nat.lt_succ_self _) ts rfl
      have hlater {free' : BinaryOp → Prop} {depth' : Nat} {held rest us : List Token}
          (h : Taken free' depth' ts held rest us) {vs : List Token} (hvs : vs <:+ rest) :=
        have hsuffix : vs <:+ ts := h.split ▸ hvs.trans (List.suffix_append _ _)
        ih vs.length (Nat.lt_succ_of_le hsuffix.length_le) vs rfl free depth
          fun hmem => hvalid.2 (hsuffix.mem hmem)
      have hoperator (ht : IsOperator free t) (hclose : Closes depth ts) :
          ∃ held rest us, Taken free depth (t :: ts) held rest us :=
        have ⟨_, _, _, htaken⟩ := htail _ depth hvalid.2 hclose
        htaken.operator ht (hlater htaken (List.suffix_refl _) htaken.closes)
      cases t with
      | invalid => exact absurd rfl hvalid.1
      | atom a =>
        obtain ⟨held, rest, us, htaken⟩ :=
          htail free depth hvalid.2 ((closes_executable_iff (.atom a) rfl).1 hclose)
        exact ⟨_, rest, _, congrArg (List.cons _) htaken.split, htaken.released.operand a,
          htaken.stops, htaken.closes⟩
      | unary op => exact hoperator trivial ((closes_executable_iff (.unary op) rfl).1 hclose)
      | binary op =>
        by_cases hop : free op
        · exact hoperator hop ((closes_executable_iff (.binary op) rfl).1 hclose)
        · exact ⟨_, _, _, .nil (.of_mem rfl (.inr ⟨op, rfl, hop⟩)) hclose⟩
      | rightParen => exact ⟨_, _, _, .nil (.of_mem rfl (.inl rfl)) hclose⟩
      | leftParen =>
        obtain ⟨inner, rest, us, hinner⟩ :=
          htail (fun _ => True) (depth + 1) hvalid.2 (closes_leftParen_iff.1 hclose)
        obtain ⟨ts', rfl, hclose'⟩ := hinner.parens
        obtain ⟨held, rest, vs, rfl, hheld, hstops, hrest⟩ :=
          hlater hinner (List.suffix_cons _ _) hclose'
        exact ⟨_, rest, _, by rw [hinner.split]; simp, .parens hinner.released hheld, hstops, hrest⟩

end Infix

theorem postfixOfInfix_readings (ts : List Token) :
    postfixOfInfix (Infix.readings true ts) = postfixOfInfix ts := by
  have hrun : Infix.State.run 0 {} (Infix.readings true ts) = Infix.State.run 0 {} ts :=
    Infix.State.run_readings ts 0 {}
  rw [postfixOfInfix, hrun, postfixOfInfix]

/-- **Tokens are converted exactly to the order in which they are released.** -/
theorem postfixOfInfix_eq_ok_iff {ts us : List Token} :
    postfixOfInfix ts = .ok us ↔ Infix.Released (fun _ => True) (Infix.readings true ts) us := by
  refine ⟨fun h => ?_, Infix.postfixOfInfix_of_released⟩
  have hread := (postfixOfInfix_readings ts).trans h
  have hbalanced := balanced_of_postfixOfInfix hread
  obtain ⟨held, rest, vs, hsplit, hreleased, hstops, hclose⟩ :=
    Infix.exists_taken (Infix.readings true ts) (fun _ => True) 0
      (invalid_not_mem_of_postfixOfInfix hread) ⟨hbalanced.closed_le, hbalanced.closed_eq⟩
  -- Nothing can be left but a parenthesis that closes none.
  cases rest with
  | nil =>
    rw [List.append_nil] at hsplit
    rw [← hsplit] at hreleased
    have hvs := Infix.postfixOfInfix_of_released hreleased
    rw [h, Except.ok.injEq] at hvs
    exact hvs ▸ hreleased
  | cons next rest =>
    rcases hstops next rfl with rfl | ⟨_, _, hnot⟩
    · obtain ⟨outer, houter, -⟩ := Infix.closes_rightParen_iff.1 hclose
      cases houter
    · exact absurd trivial hnot

end Bytebeat
