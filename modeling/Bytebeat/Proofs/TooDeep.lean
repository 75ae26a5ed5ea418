import Bytebeat.Proofs.Compiled
import Bytebeat.Proofs.Grammar
import Bytebeat.Proofs.Parentheses
import Bytebeat.Proofs.Printing
import Bytebeat.Proofs.Reordering
import Mathlib.Data.List.Induction
import Mathlib.Data.List.Perm.Subperm

/-!
# Programs that are too deep

A text in postfix order that needs too great a stack is converted as if it were
infix. The conversion puts operators out later, if at all (`exists_before_operand`),
so that the stack is after each operand at least as high as it was
(`greatest_le_of_postfixOfInfix`). Hence no operator lacks an operand and the
result is as deep, or it is left unbalanced by minus signs that are read as
negations (`Program.compile_of_deep_postOrder`).
-/

namespace Bytebeat

open Infix (isBinary readings State)

/-! ## Heights by counting -/

namespace Postfix

variable {ts : List Token} {h h' : Heights} {position : Nat}

theorem current_of_step {t : Token} (hs : step position t h = .ok h') :
    0 < h'.current ∧ h'.current + [t].countP isBinary = h.current + (operands [t]).length := by
  cases t with
  | atom a => cases hs; exact ⟨Nat.succ_pos _, rfl⟩
  | unary op | binary op =>
    simp only [step, Token.arity] at hs
    split at hs
    · cases hs
    · cases hs
      simp [isBinary, operands_cons, Token.operand?]
      omega
  | leftParen | rightParen | invalid => cases hs

theorem current_of_run : ∀ {h h' : Heights} {position : Nat}, run position h ts = .ok h' →
    h'.current + ts.countP isBinary = h.current + (operands ts).length := by
  induction ts with
  | nil => intro h h' position hrun; cases hrun; rfl
  | cons t ts ih =>
    intro h h' position hrun
    obtain ⟨h₁, hs, hrun⟩ := run_cons_eq_ok hrun
    have hstep := (current_of_step hs).2
    have hrest := ih hrun
    rw [← List.singleton_append, List.countP_append, operands_append, List.length_append]
    omega

/-- No operator lacks an operand: fewer binary operators than operands stand in each prefix. -/
def Covered (ts : List Token) : Prop :=
  ∀ done, done <+: ts → done ≠ [] → done.countP isBinary < (operands done).length

theorem covered_of_run (hrun : run position {} ts = .ok h) : Covered ts := by
  rintro done ⟨rest, rfl⟩ hne
  obtain ⟨h₁, hdone, -⟩ := run_append_eq_ok hrun
  have hcount := current_of_run hdone
  obtain ⟨init, t, hlast⟩ := (List.eq_nil_or_concat done).resolve_left hne
  rw [hlast, List.concat_eq_append] at hdone
  obtain ⟨h₂, -, hlast⟩ := run_append_eq_ok hdone
  obtain ⟨h₃, hs, hnil⟩ := run_cons_eq_ok hlast
  cases hnil
  have hpos := (current_of_step hs).1
  simp only [Nat.zero_add] at hcount
  omega

theorem exists_run_of_covered (hexec : ∀ t ∈ ts, t.isExecutable = true) (hcovered : Covered ts) :
    ∃ h, run position {} ts = .ok h := by
  induction ts using List.reverseRecOn with
  | nil => exact ⟨{}, rfl⟩
  | append_singleton ts t ih =>
    obtain ⟨h, hrun⟩ := ih (fun u hu => hexec u (List.mem_append_left _ hu)) fun done hdone =>
      hcovered done (hdone.trans (List.prefix_append _ _))
    have hcount := current_of_run hrun
    have hlast := hcovered _ (List.prefix_refl _) (List.append_ne_nil_of_right_ne_nil _ nofun)
    rw [List.countP_append, operands_append, List.length_append] at hlast
    rw [run_append, hrun]
    simp only [Nat.zero_add] at hcount
    cases t with
    | atom a => exact ⟨_, rfl⟩
    | unary op =>
      simp [isBinary, operands_cons, Token.operand?] at hlast
      have hs : step (position + ts.length) (.unary op) h = .ok h := if_neg (by omega)
      exact ⟨h, run_cons_of_step hs []⟩
    | binary op =>
      simp [isBinary, operands_cons, Token.operand?] at hlast
      have hs : step (position + ts.length) (.binary op) h =
          .ok { h with current := h.current - 1 } := if_neg (by omega)
      exact ⟨_, run_cons_of_step hs []⟩
    | leftParen | rightParen | invalid => cases hexec _ (List.mem_append_right _ List.mem_cons_self)

theorem current_le_greatest_of_step {t : Token} (hle : h.current ≤ h.greatest)
    (hs : step position t h = .ok h') : h'.current ≤ h'.greatest := by
  cases t with
  | atom a => cases hs; exact Nat.le_max_right _ _
  | unary op =>
    simp only [step, Token.arity] at hs
    split at hs
    · cases hs
    · cases hs; exact hle
  | binary op =>
    simp only [step, Token.arity] at hs
    split at hs
    · cases hs
    · cases hs; exact Nat.le_trans (Nat.sub_le _ _) hle
  | leftParen | rightParen | invalid => cases hs

theorem current_le_greatest_of_run : ∀ {h h' : Heights} {position : Nat}, h.current ≤ h.greatest →
    run position h ts = .ok h' → h'.current ≤ h'.greatest := by
  induction ts with
  | nil => intro h h' position hle hrun; cases hrun; exact hle
  | cons t ts ih =>
    intro h h' position hle hrun
    obtain ⟨h₁, hs, hrun⟩ := run_cons_eq_ok hrun
    exact ih (current_le_greatest_of_step hle hs) hrun

/-- The stack is as high after a prefix as it has operands that no binary operator took. -/
theorem height_le_greatest {done : List Token} (hrun : run position {} ts = .ok h)
    (hdone : done <+: ts) : (operands done).length ≤ h.greatest + done.countP isBinary := by
  obtain ⟨rest, rfl⟩ := hdone
  obtain ⟨h₁, hfirst, hrest⟩ := run_append_eq_ok hrun
  have hcount := current_of_run hfirst
  have hle := current_le_greatest_of_run (Nat.le_refl 0) hfirst
  have hgreatest := greatest_le_of_run hrest
  simp only [Nat.zero_add] at hcount
  omega

end Postfix

/-! ## Conversion puts operators out later -/

namespace Infix

variable {ts us : List Token} {a : Atom}

theorem State.output_suffix_of_step {s s' : State} {position : Nat} {t : Token}
    (hs : s.step position t = .ok s') : s.output <:+ s'.output := by
  unfold State.step at hs
  generalize s.read t = t at hs
  cases t with
  | invalid => cases hs
  | atom a => cases hs; exact List.suffix_cons _ _
  | unary op | leftParen => cases hs; exact List.suffix_rfl
  | binary op =>
    cases hs
    obtain ⟨gone, -, -, hout⟩ := releaseFor_spec (.binary op) s.output s.waiting
    exact ⟨gone.reverse, hout.symm⟩
  | rightParen =>
    simp only at hs
    split at hs
    · rename_i output waiting hclose
      cases hs
      obtain ⟨gone, -, -, hout⟩ := closeParen?_spec hclose
      exact ⟨gone.reverse, hout.symm⟩
    · cases hs

theorem State.output_suffix_of_run : ∀ {s s' : State} {position : Nat},
    State.run position s ts = .ok s' → s.output <:+ s'.output := by
  induction ts with
  | nil => intro s s' position hrun; cases hrun; exact List.suffix_rfl
  | cons t ts ih =>
    intro s s' position hrun
    unfold State.run at hrun
    split at hrun
    · rename_i hs
      exact (State.output_suffix_of_step hs).trans (ih hrun)
    · cases hrun

/-- Before an operand come out the operands that stand before it, and of the operators no more than
stand before it. -/
theorem exists_before_operand {more : List Token}
    (h : postfixOfInfix (ts ++ .atom a :: more) = .ok us) :
    ∃ done rest, us = done ++ .atom a :: rest ∧ operands done = operands ts ∧
      done.Subperm (readings true ts) := by
  unfold postfixOfInfix at h
  split at h
  · cases h
  rename_i s hrun
  split at h
  · rename_i output hfinish
    cases h
    obtain ⟨s₁, hfirst⟩ := State.run_append_eq_ok hrun
    rw [State.run_append, hfirst] at hrun
    have hemits : s₁.Emits (operands ts) := State.Emits.run ⟨rfl, rfl⟩ hfirst
    have hholds := State.holds_start.run hfirst
    -- Once the operand is read, it stands right after what has been put out until then.
    obtain ⟨later, hlater⟩ : .atom a :: s₁.output <:+ s.output :=
      @State.output_suffix_of_run more _ _ _ hrun
    obtain ⟨-, rfl⟩ := finish?_spec hfinish
    refine ⟨s₁.output.reverse, later.reverse ++ s.waiting, ?_, hemits.output, ?_⟩
    · simp [← hlater]
    · have hsub := (List.sublist_append_right s₁.waiting s₁.output).filter Token.isExecutable
      rw [List.filter_eq_self.2 hholds.output] at hsub
      exact (List.reverse_perm _).subperm.trans
        (hsub.subperm.trans (hholds.perm.subperm.trans List.filter_sublist.subperm))
  · cases h

/-- The minus signs that stand right after an operator. -/
def signsAfterOperators (ts : List Token) : Nat :=
  (ts.zip ts.tail).countP fun (t, u) => t.isOperator && u == .binary .subtract

theorem expectsAfter_of_isExecutable {t : Token} (h : t.isExecutable = true) :
    expectsAfter t = t.isOperator := by
  cases t with
  | atom | unary | binary => rfl
  | leftParen | rightParen | invalid => cases h

theorem signsAfterOperators_cons {t : Token} (h : t.isExecutable = true) (ts : List Token) :
    signsAfterOperators (t :: ts) =
      (if expectsAfter t = true ∧ ts.head? = some (.binary .subtract) then 1 else 0) +
        signsAfterOperators ts := by
  rw [expectsAfter_of_isExecutable h]
  cases ts with
  | nil => simp [signsAfterOperators]
  | cons u ts => simp [signsAfterOperators, List.countP_cons, Nat.add_comm]

theorem countP_isBinary_read (expects : Bool) (t : Token) :
    [State.read { expectsOperand := expects } t].countP isBinary +
      (if expects = true ∧ t = .binary .subtract then 1 else 0) = [t].countP isBinary := by
  by_cases h : t = .binary .subtract ∧ expects = true
  · rw [State.read, if_pos h, if_pos h.symm, h.1]
    rfl
  · rw [State.read, if_neg h, if_neg fun h' => h h'.symm, Nat.add_zero]

/-- A minus sign is no binary operator where it is read as a negation: at the start, if an operand is
expected there, or after an operator. -/
theorem countP_isBinary_readings (hexec : ∀ t ∈ ts, t.isExecutable = true) (expects : Bool) :
    (readings expects ts).countP isBinary +
        (if expects = true ∧ ts.head? = some (.binary .subtract) then 1 else 0) +
        signsAfterOperators ts = ts.countP isBinary := by
  induction ts generalizing expects with
  | nil => simp [readings, signsAfterOperators]
  | cons t ts ih =>
    obtain ⟨ht, hts⟩ := List.forall_mem_cons.1 hexec
    have hfirst := countP_isBinary_read expects t
    have hrest := ih hts (expectsAfter t)
    rw [readings, ← List.singleton_append, List.countP_append, signsAfterOperators_cons ht,
      ← List.singleton_append (l := ts), List.countP_append, List.singleton_append, List.head?_cons]
    simp only [Option.some.injEq]
    omega

theorem countP_isBinary_le_of_subperm {done : List Token} (hexec : ∀ t ∈ ts, t.isExecutable = true)
    (h : done.Subperm (readings true ts)) : done.countP isBinary ≤ ts.countP isBinary := by
  have hread := countP_isBinary_readings hexec true
  have hle := h.countP_le isBinary
  omega

end Infix

/-! ## Post-orders taken for infix -/

theorem Expression.isExecutable_of_mem (e : Expression) :
    ∀ t ∈ e.postOrder, t.isExecutable = true := by
  induction e with
  | leaf a => exact List.forall_mem_singleton.2 rfl
  | unary op e ih => exact List.forall_mem_append.2 ⟨ih, List.forall_mem_singleton.2 rfl⟩
  | binary op l r ihl ihr =>
    exact List.forall_mem_append.2
      ⟨List.forall_mem_append.2 ⟨ihl, ihr⟩, List.forall_mem_singleton.2 rfl⟩

theorem exists_nth_operand {ts : List Token} :
    ∀ {k : Nat}, k < (operands ts).length →
      ∃ done a more, ts = done ++ .atom a :: more ∧ (operands done).length = k := by
  induction ts with
  | nil => exact fun h => absurd h (Nat.not_lt_zero _)
  | cons t ts ih =>
    intro k h
    rw [operands_cons, List.length_append] at h
    by_cases hfirst : t.operand?.toList.length ≤ k
    · obtain ⟨done, a, more, rfl, hdone⟩ := ih (k := k - t.operand?.toList.length) (by omega)
      refine ⟨t :: done, a, more, rfl, ?_⟩
      rw [operands_cons, List.length_append, hdone]
      omega
    · cases t with
      | atom a =>
        refine ⟨[], a, ts, rfl, ?_⟩
        simp [Token.operand?] at hfirst
        simp [hfirst]
      | unary | binary | leftParen | rightParen | invalid => exact absurd (Nat.zero_le k) hfirst

/-- Of two beginnings the one with fewer operands ends no later than the other's next operand. -/
theorem prefix_of_operands_le {us vs done : List Token} {a : Atom} (hdone : done <+: us)
    (hvs : vs ++ [.atom a] <+: us) (hle : (operands done).length ≤ (operands vs).length) :
    done <+: vs := by
  have hmore : (operands (vs ++ [.atom a])).length = (operands vs).length + 1 := by
    rw [operands_append, List.length_append]
    rfl
  rcases List.prefix_or_prefix_of_prefix hdone hvs with hp | hp
  · rcases List.prefix_concat_iff.1 hp with rfl | hp
    · omega
    · exact hp
  · have hlength : (operands (vs ++ [.atom a])).length ≤ (operands done).length :=
      (hp.filterMap Token.operand?).length_le
    omega

open Postfix (Covered)

section

variable {ts us : List Token} (hexec : ∀ t ∈ ts, t.isExecutable = true)
  (hconv : postfixOfInfix ts = .ok us)

include hexec hconv

theorem countP_isBinary_le_of_postfixOfInfix : us.countP isBinary ≤ ts.countP isBinary := by
  have hperm := (perm_of_postfixOfInfix hconv).countP_eq isBinary
  have hread := Infix.countP_isBinary_readings hexec true
  rw [Infix.countP_isBinary_filter] at hperm
  omega

theorem exists_before_nth_operand {k : Nat} (hk : k < (operands ts).length) :
    ∃ before vs a, before ++ [.atom a] <+: ts ∧ vs ++ [.atom a] <+: us ∧
      (operands before).length = k ∧ (operands vs).length = k ∧
      vs.countP isBinary ≤ before.countP isBinary ∧ (before = [] → vs = []) := by
  obtain ⟨before, a, more, rfl, hbefore⟩ := exists_nth_operand hk
  obtain ⟨vs, rest, rfl, hoperands, hsub⟩ := Infix.exists_before_operand hconv
  refine ⟨before, vs, a, ⟨more, by simp⟩, ⟨rest, by simp⟩, hbefore, hoperands ▸ hbefore,
    Infix.countP_isBinary_le_of_subperm (fun t ht => hexec t (List.mem_append_left _ ht)) hsub,
    fun hnil => ?_⟩
  subst hnil
  exact List.subperm_nil.1 hsub

theorem Covered.of_postfixOfInfix (h : Covered ts) : Covered us := by
  intro done hdone hne
  have hus := countP_isBinary_le_of_postfixOfInfix hexec hconv
  have hlength := congrArg List.length (operands_of_postfixOfInfix hconv)
  by_cases hk : (operands done).length < (operands ts).length
  · obtain ⟨before, vs, a, hts, hvs, hbefore, hoperands, hle, hnil⟩ :=
      exists_before_nth_operand hexec hconv hk
    have hprefix := prefix_of_operands_le hdone hvs (Nat.le_of_eq hoperands.symm)
    have hcount := hprefix.sublist.countP_le (p := isBinary)
    have hne' : before ≠ [] := fun hbefore => hne (List.prefix_nil.1 (hnil hbefore ▸ hprefix))
    have hcovered := h before ((List.prefix_append _ _).trans hts) hne'
    omega
  · have hcount := hdone.sublist.countP_le (p := isBinary)
    have hne' : ts ≠ [] := by
      rintro rfl
      cases hconv
      exact hne (List.prefix_nil.1 hdone)
    have hcovered := h ts (List.prefix_refl _) hne'
    omega

theorem greatest_le_of_postfixOfInfix {h h' : Postfix.Heights} {position : Nat}
    (hts : Postfix.run position {} ts = .ok h) (hus : Postfix.run position {} us = .ok h') :
    h.greatest ≤ h'.greatest := by
  rcases Postfix.exists_greatest_of_run hts with hzero | ⟨done, h₁, hdone, hrun, hcurrent⟩
  · rw [hzero]
    exact Nat.zero_le _
  rcases Nat.eq_zero_or_pos h.greatest with hzero | hpos
  · rw [hzero]
    exact Nat.zero_le _
  have hcount := Postfix.current_of_run hrun
  have hlength : (operands done).length ≤ (operands ts).length :=
    (hdone.filterMap Token.operand?).length_le
  simp only [Nat.zero_add] at hcount
  -- The operand that is the last of `done`.
  obtain ⟨before, vs, a, hbefore, hvs, hk, hk', hle, -⟩ :=
    exists_before_nth_operand hexec hconv (k := (operands done).length - 1) (by omega)
  have hprefix : before <+: done := by
    rcases List.prefix_or_prefix_of_prefix ((List.prefix_append _ _).trans hbefore) hdone with hp | hp
    · exact hp
    · have hlength : (operands done).length ≤ (operands before).length :=
        (hp.filterMap Token.operand?).length_le
      omega
  have hbinary := hprefix.sublist.countP_le (p := isBinary)
  have hheight := Postfix.height_le_greatest hus hvs
  rw [operands_append, List.length_append, List.countP_append] at hheight
  simp [isBinary, operands_cons, Token.operand?] at hheight
  omega

end

open Infix (signsAfterOperators)

namespace Program

theorem exists_postfixOfInfix {ts : List Token} (hexec : ∀ t ∈ ts, t.isExecutable = true) :
    ∃ us, postfixOfInfix ts = .ok us := by
  have hnone : ∀ t : Token, t.isExecutable = false → t ∉ ts := fun t ht hmem => by
    rw [hexec t hmem] at ht
    cases ht
  have hright : ∀ us, us <+: ts → us.count .rightParen = 0 := fun us hus =>
    List.count_eq_zero.2 fun hmem => hnone .rightParen rfl (hus.subset hmem)
  have hbalanced : Infix.Balanced ts := by
    refine ⟨fun us hus => ?_, ?_⟩
    · rw [hright us hus]
      exact Nat.zero_le _
    · rw [hright ts (List.prefix_refl _), List.count_eq_zero.2 (hnone .leftParen rfl)]
  exact ((postfixOfInfix_of_valid (hnone .invalid rfl)).resolve_right fun h => h.1 hbalanced).2

/-- A post-order that is too deep is too deep as well once converted, or left unbalanced by the minus
signs that are read as negations. -/
theorem arrange_of_deep_postOrder {e : Expression} (hdeep : maxStackDepth < e.need) :
    (signsAfterOperators e.postOrder = 0 → ∃ height, e.need ≤ height ∧
        arrange e.postOrder = .error (.tooDeep height maxStackDepth)) ∧
      (0 < signsAfterOperators e.postOrder →
        arrange e.postOrder = .error (.unbalanced (signsAfterOperators e.postOrder + 1))) := by
  have hexec := e.isExecutable_of_mem
  have hrun : Postfix.run 0 {} e.postOrder = .ok ⟨1, e.need⟩ := by
    have hrun := Postfix.run_postOrder e 0 {} []
    rw [List.append_nil] at hrun
    rw [hrun, Postfix.run]
    simp only [Nat.zero_add, Nat.zero_max]
  have hcovered := Postfix.covered_of_run hrun
  obtain ⟨us, hconv⟩ := exists_postfixOfInfix hexec
  have hexec' : ∀ t ∈ us, t.isExecutable = true := (Infix.moves_of_postfixOfInfix hconv).executable
  obtain ⟨h, hrun'⟩ : ∃ h, Postfix.run 0 {} us = .ok h :=
    Postfix.exists_run_of_covered hexec' (Covered.of_postfixOfInfix hexec hconv hcovered)
  have hgreatest : e.need ≤ h.greatest := greatest_le_of_postfixOfInfix hexec hconv hrun hrun'
  have hcurrent : h.current = signsAfterOperators e.postOrder + 1 := by
    have hcount := Postfix.current_of_run hrun'
    have hread := Infix.countP_isBinary_readings hexec true
    have hhead : e.postOrder.head? ≠ some (.binary .subtract) := fun hhead => by
      obtain ⟨rest, hrest⟩ := List.head?_eq_some_iff.1 hhead
      exact absurd (hcovered [.binary .subtract] ⟨rest, hrest.symm⟩ (List.cons_ne_nil _ _))
        (Nat.not_lt_zero _)
    rw [if_neg fun h => hhead h.2] at hread
    have hperm := (perm_of_postfixOfInfix hconv).countP_eq isBinary
    rw [Infix.countP_isBinary_filter] at hperm
    rw [operands_of_postfixOfInfix hconv, Infix.length_operands_postOrder] at hcount
    simp only [Nat.zero_add] at hcount
    omega
  have harrange : arrange e.postOrder = (postfixDepth us).map (us, ·) := by
    simp only [arrange, postfixDepth_postOrder, if_neg (Nat.not_le.2 hdeep), hconv]
  rw [harrange, postfixDepth, hrun']
  simp only [hcurrent]
  constructor
  · intro hzero
    refine ⟨h.greatest, hgreatest, ?_⟩
    rw [if_neg (by omega), if_pos (Nat.lt_of_lt_of_le hdeep hgreatest)]
    rfl
  · intro hpos
    rw [if_pos (by omega)]
    rfl

/-- **A text in postfix order that is too deep does not compile**: read as infix it is as deep, or,
if and only if a minus sign stands right after an operator, left unbalanced. -/
theorem compile_of_deep_postOrder {source : String} {t : TokenText} {e : Expression}
    (ht : tokenize source = .ok t) (he : t.tokens = e.postOrder) (hdeep : maxStackDepth < e.need) :
    (signsAfterOperators t.tokens = 0 → ∃ height, e.need ≤ height ∧
        compile source = .error (.grammatical (.tooDeep height maxStackDepth))) ∧
      (0 < signsAfterOperators t.tokens →
        compile source =
          .error (.grammatical (.unbalanced (signsAfterOperators t.tokens + 1)))) := by
  rw [compile_of_tokenize ht (he ▸ e.postOrder_ne_nil), he]
  obtain ⟨hdepth, hsigns⟩ := arrange_of_deep_postOrder hdeep
  refine ⟨fun hzero => ?_, fun hpos => by rw [hsigns hpos]⟩
  obtain ⟨height, hle, harrange⟩ := hdepth hzero
  exact ⟨height, hle, by rw [harrange]⟩

end Program

/-- The tree `pi op (pi op (… op pi))` with `n` operators. -/
def Expression.comb (op : BinaryOp) (n : Nat) : Expression :=
  (Expression.binary op (.leaf .pi))^[n] (.leaf .pi)

theorem Expression.need_comb (op : BinaryOp) (n : Nat) : (comb op n).need = n + 1 := by
  induction n with
  | zero => rfl
  | succ n ih =>
    have hcomb : comb op (n + 1) = .binary op (.leaf .pi) (comb op n) :=
      Function.iterate_succ_apply' _ n _
    rw [hcomb, need, need, ih]
    omega

/-- In `pi pi … pi - - … -` all minus signs but the first are read as negations. -/
theorem Program.compile_of_deep_postOrder_differences : ∃ source t,
    tokenize source = .ok t ∧ t.tokens = (Expression.comb .subtract 128).postOrder ∧
      maxStackDepth < (Expression.comb .subtract 128).need ∧ 0 < signsAfterOperators t.tokens ∧
      compile source =
        .error (.grammatical (.unbalanced (signsAfterOperators t.tokens + 1))) := by
  have hcount : (Expression.comb .subtract 128).postOrder.count (.atom .number) = 0 := by
    decide +kernel
  have hspelt : Lexer.Spelt (words (Expression.comb .subtract 128).postOrder [])
      ⟨(Expression.comb .subtract 128).postOrder, []⟩ :=
    spelt_words (spelling_ne_of_mem_postOrder _) hcount nofun
  have ht := hspelt.scan_intercalate 0
  have hdeep : maxStackDepth < (Expression.comb .subtract 128).need := by
    rw [Expression.need_comb]
    decide
  have hsigns : 0 < signsAfterOperators (Expression.comb .subtract 128).postOrder := by
    decide +kernel
  exact ⟨_, _, ht, rfl, hdeep, hsigns, (compile_of_deep_postOrder ht rfl hdeep).2 hsigns⟩

end Bytebeat
