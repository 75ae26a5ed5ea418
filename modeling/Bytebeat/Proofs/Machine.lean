import Bytebeat.Machine
import Bytebeat.Proofs.Compiled
import Mathlib.Control.Monad.Basic

/-!
# Runs of the stack machine stay in bounds

`Machine.Ready` says what a token asks of the machine: the operands it takes,
room for the value it adds and, for a `number` token, a literal that is still
to be read. A machine that is ready takes the step (`step_of_ready`). The
check of postfix order runs ahead of the machine with the heights alone
(`run_of_check`), so that a compiled program always finds the machine ready
(`Evaluator.run_in_bounds`).
-/

namespace Bytebeat

/-- The value of an operand, with `literal` the next literal and `draw` the next draw. -/
def Atom.value (inputs : Inputs) (literal draw : Float) : Atom → Float
  | number => literal
  | pi => Constant.pi
  | twoPi => Constant.twoPi
  | halfPi => Constant.halfPi
  | e => Constant.e
  | random => draw
  | reading r => inputs.globals.get r
  | input c => inputs.channels.get c

namespace Machine

variable {p : Program} {inputs : Inputs}

/-- What a token asks of the machine that is to run it. -/
def Ready (p : Program) (m : Machine) : Token → Prop
  | .atom a => m.height < p.depth ∧ (a = .number → m.cursor < p.literals.length)
  | .unary _ => 1 ≤ m.height
  | .binary _ => 2 ≤ m.height
  | .leftParen | .rightParen | .invalid => False

@[simp] theorem replace_height (n : Nat) (v : Float) (m : Machine) :
    (m.replace n v).height = m.height - n + 1 := rfl

theorem load_of_ready {m : Machine} {a : Atom} (h : m.Ready p (.atom a)) :
    m.load p inputs a = some { m.replace 0
        (a.value inputs (p.literals.getD m.cursor 0) m.random.draw) with
      cursor := m.cursor + [a].count .number
      random := if a = .random then m.random.next else m.random } := by
  obtain ⟨hroom, hlit⟩ := h
  cases a with
  | number =>
    have hlit := hlit rfl
    simp [load, List.getElem?_eq_getElem hlit, push, hroom, replace, Atom.value]
  | _ => simp [load, push, hroom, replace, Atom.value]

/-- A machine that is ready takes the step, to the height that the token's arity tells. -/
theorem step_of_ready (inputs : Inputs) {m : Machine} {t : Token} (h : m.Ready p t) :
    ∃ m', m.step p inputs t = some m' ∧ m'.cursor = m.cursor + [t].count (.atom .number) ∧
      t.arity.stackEffect? = some ((m'.height : Int) - m.height) := by
  cases t with
  | atom a =>
    refine ⟨_, load_of_ready h, ?_, ?_⟩
    · by_cases ha : a = .number <;> simp [ha]
    · simp only [Token.arity, Arity.stackEffect?, replace_height, Option.some.injEq]
      omega
  | unary op =>
    refine ⟨_, if_pos h, rfl, ?_⟩
    have h : 1 ≤ m.height := h
    simp only [Token.arity, Arity.stackEffect?, replace_height, Option.some.injEq]
    omega
  | binary op =>
    refine ⟨_, if_pos h, rfl, ?_⟩
    have h : 2 ≤ m.height := h
    simp only [Token.arity, Arity.stackEffect?, replace_height, Option.some.injEq]
    omega
  | leftParen | rightParen | invalid => exact h.elim

/-! ## The check runs ahead -/

/-- A machine at the height found by the check is ready for a token that passes it. -/
theorem ready_of_check {position : Nat} {t : Token} {h h' : Postfix.Heights} {m : Machine}
    (hs : Postfix.step position t h = .ok h') (hheight : m.height = h.current)
    (hroom : h'.greatest ≤ p.depth)
    (hlit : m.cursor + [t].count (.atom .number) ≤ p.literals.length) : m.Ready p t := by
  cases t with
  | atom a =>
    cases hs
    refine ⟨?_, ?_⟩
    · simp only at hroom
      omega
    · rintro rfl
      exact hlit
  | unary op | binary op =>
    simp only [Postfix.step, Token.arity] at hs
    split at hs
    · cases hs
    · simp only [Ready]
      omega
  | leftParen | rightParen | invalid => cases hs

theorem run_of_check (inputs : Inputs) {ts : List Token} :
    ∀ {position : Nat} {h h' : Postfix.Heights} {m : Machine},
      Postfix.run position h ts = .ok h' → m.height = h.current → h'.greatest ≤ p.depth →
      m.cursor + ts.count (.atom .number) ≤ p.literals.length →
      ∃ m', m.run p inputs ts = some m' ∧ m'.height = h'.current ∧
        m'.cursor = m.cursor + ts.count (.atom .number) := by
  induction ts with
  | nil =>
    intro position h h' m hrun hheight _ _
    cases hrun
    exact ⟨m, rfl, hheight, rfl⟩
  | cons t ts ih =>
    intro position h h' m hrun hheight hroom hlit
    obtain ⟨h₁, hs, hrun⟩ := Postfix.run_cons_eq_ok hrun
    rw [← List.singleton_append, List.count_append] at hlit
    have hready : m.Ready p t := ready_of_check hs hheight
      (Nat.le_trans (Postfix.greatest_le_of_run hrun) hroom) (by omega)
    obtain ⟨m₁, hstep, hcursor, heffect⟩ := step_of_ready inputs hready
    have hheight₁ : m₁.height = h₁.current := by
      rw [Postfix.stackEffect?_of_step hs, Option.some.injEq] at heffect
      omega
    obtain ⟨m', hm', hh', hc'⟩ := ih hrun hheight₁ hroom (by omega)
    refine ⟨m', by simp only [run, hstep, hm'], hh', ?_⟩
    rw [hc', hcursor, ← List.singleton_append (l := ts), List.count_append, Nat.add_assoc]

theorem run_of_prefix (hp : p.WellFormed) (inputs : Inputs) (e : Evaluator) {done rest : List Token}
    (hsplit : p.tokens = done ++ rest) :
    ∃ h m, Postfix.run 0 {} done = .ok h ∧
      Postfix.run done.length h rest = .ok ⟨1, p.depth⟩ ∧
      run p inputs { toEvaluator := e } done = some m ∧ m.height = h.current ∧
      m.cursor = done.count (.atom .number) := by
  obtain ⟨-, hrun⟩ := heights_of_postfixDepth hp.checked
  have hlits := hp.literals_length
  rw [hsplit] at hrun hlits
  obtain ⟨h, hdone, hrest⟩ := Postfix.run_append_eq_ok hrun
  rw [Nat.zero_add] at hrest
  have hlit : 0 + done.count (.atom .number) ≤ p.literals.length := by
    rw [hlits, List.count_append]
    omega
  obtain ⟨m, hm, hheight, hcursor⟩ := run_of_check inputs (m := { toEvaluator := e }) hdone rfl
    (Postfix.greatest_le_of_run hrest) hlit
  exact ⟨h, m, hdone, hrest, hm, hheight, by rw [hcursor, Nat.zero_add]⟩

end Machine

namespace Evaluator

/-- **A compiled program never makes the machine reach out of bounds**, whatever an evaluator has
run before. Each token finds its operands, room below the program's depth and the next literal; the
tokens that read literals read each of them once, in order; one value is left; and the depth is
reached. -/
theorem run_in_bounds {source : String} {p : Program} (hp : Program.compile source = .ok p)
    (e : Evaluator) (inputs : Inputs) :
    p.depth ≤ 128 ∧
    (∀ done t rest, p.tokens = done ++ t :: rest →
      ∃ m, Machine.run p inputs { toEvaluator := e } done = some m ∧ m.Ready p t ∧
        m.cursor = done.count (.atom .number)) ∧
    (p.tokens ≠ [] →
      ∃ m, e.run? p inputs = some m ∧ m.height = 1 ∧ m.cursor = p.literals.length ∧
        ∃ done m', done <+: p.tokens ∧
          Machine.run p inputs { toEvaluator := e } done = some m' ∧ m'.height = p.depth) := by
  rcases Program.wellFormed_of_compile hp with rfl | hwf
  · refine ⟨Nat.zero_le _, fun done t rest h => ?_, fun h => absurd rfl h⟩
    simp at h
  refine ⟨hwf.depth_le, fun done t rest hsplit => ?_, fun _ => ?_⟩
  · obtain ⟨h, m, hdone, hrest, hm, hheight, hcursor⟩ :=
      Machine.run_of_prefix hwf inputs e hsplit
    have hlits := hwf.literals_length
    rw [hsplit, ← List.singleton_append, List.count_append, List.count_append] at hlits
    obtain ⟨h₁, hs, hrest⟩ := Postfix.run_cons_eq_ok hrest
    exact ⟨m, hm, Machine.ready_of_check hs hheight (Postfix.greatest_le_of_run hrest) (by omega),
      hcursor⟩
  · obtain ⟨h, m, hdone, hend, hm, hheight, hcursor⟩ :=
      Machine.run_of_prefix hwf inputs e (List.append_nil p.tokens).symm
    cases hend
    refine ⟨m, by rw [run?, if_pos ⟨hwf.depth_pos, hwf.depth_le⟩, hm], hheight,
      by rw [hcursor, hwf.literals_length], ?_⟩
    rcases Postfix.exists_greatest_of_run hdone with hzero | ⟨done, h₁, ⟨rest, hrest⟩, hrun₁, hcur⟩
    · exact absurd hzero (Nat.ne_of_gt hwf.depth_pos)
    · obtain ⟨h₂, m', hrun₂, -, hm', hheight', -⟩ :=
        Machine.run_of_prefix hwf inputs e hrest.symm
      rw [hrun₁] at hrun₂
      cases hrun₂
      exact ⟨done, m', ⟨rest, hrest⟩, hm', by rw [hheight', hcur]⟩

/-- The operands of a product, the second in parentheses, on an evaluator that has drawn before. -/
theorem run_in_bounds_product :
    ∃ p, Program.compile "2*(rand - 0.5)" = .ok p ∧ p.depth ≤ 128 ∧
      ∃ m, (ofGenerator (Generator.ofSeed 7).next).run? p {} = some m ∧ m.height = 1 ∧
        m.cursor = p.literals.length ∧ ∃ done m', done <+: p.tokens ∧
          Machine.run p {} { toEvaluator := ofGenerator (Generator.ofSeed 7).next } done = some m' ∧
            m'.height = p.depth := by
  have hp : Program.compile "2*(rand - 0.5)" = .ok {
      source := "2*(rand - 0.5)"
      tokens := [.atom .number, .atom .random, .atom .number, .binary .subtract,
        .binary .multiply]
      literals := [2, 0.5]
      depth := 3 } := by decide +kernel
  have h := run_in_bounds hp (ofGenerator (Generator.ofSeed 7).next) {}
  exact ⟨_, hp, h.1, h.2.2 (List.cons_ne_nil _ _)⟩

end Evaluator

end Bytebeat
