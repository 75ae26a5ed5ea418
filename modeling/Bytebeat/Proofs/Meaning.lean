import Bytebeat.Proofs.Machine
import Mathlib.Logic.Function.Iterate

/-!
# The meaning of programs

The value of an expression by recursion on its tree, with literals and random
numbers taken from the left to the right, and the stack machine held against
it. `Machine.At` relates the machine to the values that it keeps in the first
places of its stack; the rest of the stack, which earlier runs have written, is
never read. One evaluation gives the value that the program means
(`Evaluator.means_evaluate`), and so does each of a row of evaluations on one
evaluator (`Evaluator.meanings_evaluateAll`).
-/

namespace Bytebeat

namespace Expression

def count (a : Atom) : Expression → Nat
  | leaf b => [b].count a
  | unary _ e => e.count a
  | binary _ l r => l.count a + r.count a

theorem count_postOrder (a : Atom) (e : Expression) :
    e.postOrder.count (.atom a) = e.count a := by
  induction e with
  | leaf b => by_cases h : b = a <;> simp [postOrder, count, h]
  | unary op e ih => simp [postOrder, count, ih]
  | binary op l r ihl ihr => simp [postOrder, count, ihl, ihr]

/-- The value of a tree whose literals are numbered from `k` and whose random numbers are
numbered from `j`. -/
def value (inputs : Inputs) (literal draw : Nat → Float) : Expression → Nat → Nat → Float
  | leaf a, k, j => a.value inputs (literal k) (draw j)
  | unary op e, k, j => op.apply (e.value inputs literal draw k j)
  | binary op l r, k, j =>
    op.apply (l.value inputs literal draw k j)
      (r.value inputs literal draw (k + l.count .number) (j + l.count .random))

end Expression

def Generator.nth (g : Generator) (j : Nat) : Float := (next^[j] g).draw

namespace Program

/-- `v` is the value of `p` with the numbers that `g` draws: zero for the empty program, else what
is heard of the value of the one tree that has the tokens for its post-order. -/
def Means (p : Program) (inputs : Inputs) (g : Generator) (v : Float) : Prop :=
  p.tokens = [] ∧ v = 0 ∨
    ∃ e : Expression, (e.postOrder = p.tokens ∧ ∀ e' : Expression, e'.postOrder = p.tokens → e' = e) ∧
      v = Evaluator.settle (e.value inputs (p.literals.getD · 0) g.nth 0 0)

theorem compile_empty : compile "" = .ok .empty := by decide +kernel

theorem Means.unique {p : Program} {inputs : Inputs} {g : Generator} {v v' : Float}
    (h : p.Means inputs g v) (h' : p.Means inputs g v') : v = v' := by
  rcases h with ⟨hnil, rfl⟩ | ⟨e, ⟨he, huniq⟩, rfl⟩
  · rcases h' with ⟨-, rfl⟩ | ⟨e, ⟨he, -⟩, -⟩
    · rfl
    · exact absurd (he.trans hnil) e.postOrder_ne_nil
  · rcases h' with ⟨hnil, -⟩ | ⟨e', ⟨he', -⟩, rfl⟩
    · exact absurd (he.trans hnil) e.postOrder_ne_nil
    · rw [huniq e' he']

end Program

namespace Machine

variable {p : Program} {inputs : Inputs} {g : Generator}

def values (m : Machine) : List Float := m.stack.toList.take m.height

/-- The machine holds the values `vs`, has read `k` literals and has drawn `j` numbers from `g`. -/
structure At (g : Generator) (m : Machine) (vs : List Float) (k j : Nat) : Prop where
  values : m.values = vs
  height : m.height = vs.length
  cursor : m.cursor = k
  random : m.random = Generator.next^[j] g

theorem At.height_le {m : Machine} {vs : List Float} {k j : Nat} (h : m.At g vs k j) :
    m.height ≤ maxStackDepth := by
  have hlen := congrArg List.length h.values
  rw [Machine.values, List.length_take, Vector.length_toList, ← h.height] at hlen
  omega

theorem values_replace {n : Nat} {m : Machine} (h : m.height - n < maxStackDepth) (v : Float) :
    (m.replace n v).values = m.values.take (m.height - n) ++ [v] := by
  have hlen : m.height - n < (m.stack.toList.set (m.height - n) v).length := by
    rwa [List.length_set, Vector.length_toList]
  simp only [values, replace, Vector.toList_setIfInBounds]
  rw [List.take_succ_eq_append_getElem hlen, List.getElem_set_self,
    List.take_set_of_le (Nat.le_refl _), List.take_take, Nat.min_eq_left (Nat.sub_le _ _)]

theorem At.replace {m : Machine} {vs : List Float} (ws : List Float) {k j : Nat}
    (h : m.At g (vs ++ ws) k j) (hroom : vs.length < maxStackDepth) (v : Float) :
    (m.replace ws.length v).At g (vs ++ [v]) k j := by
  have hheight : m.height - ws.length = vs.length := by
    rw [h.height, List.length_append, Nat.add_sub_cancel]
  refine ⟨?_, ?_, h.cursor, h.random⟩
  · rw [values_replace (by rwa [hheight]), h.values, hheight, List.take_left]
  · rw [replace_height, hheight, List.length_append, List.length_singleton]

theorem At.operand {m : Machine} (vs ws : List Float) {v : Float} {k j : Nat}
    (h : m.At g (vs ++ v :: ws) k j) : m.operand (ws.length + 1) = v := by
  have hindex : m.height - (ws.length + 1) = vs.length := by
    rw [h.height, List.length_append, List.length_cons, Nat.add_sub_cancel]
  have hlt : vs.length < m.height := by
    rw [h.height, List.length_append, List.length_cons]
    omega
  have hv : m.values[vs.length]? = some v := by rw [h.values]; simp
  rw [Machine.values, List.getElem?_take_of_lt hlt, Vector.getElem?_toList] at hv
  rw [Machine.operand, hindex, hv]
  rfl

/-! ## One token -/

theorem At.leaf (inputs : Inputs) {m : Machine} {vs : List Float} {k j : Nat} (h : m.At g vs k j)
    (a : Atom)
    (hroom : vs.length < p.depth) (hdepth : p.depth ≤ maxStackDepth)
    (hlit : k + [a].count .number ≤ p.literals.length) :
    ∃ m', m.step p inputs (.atom a) = some m' ∧
      m'.At g (vs ++ [a.value inputs (p.literals.getD k 0) (g.nth j)])
        (k + [a].count .number) (j + [a].count .random) := by
  have hready : m.Ready p (.atom a) := by
    refine ⟨h.height ▸ hroom, ?_⟩
    rintro rfl
    rw [h.cursor]
    exact hlit
  have hput := (List.append_nil vs ▸ h).replace [] (Nat.lt_of_lt_of_le hroom hdepth)
    (a.value inputs (p.literals.getD k 0) (g.nth j))
  refine ⟨_, load_of_ready hready, ?_⟩
  rw [h.cursor, h.random]
  refine ⟨hput.values, hput.height, rfl, ?_⟩
  by_cases ha : a = .random
  · simp [ha, Function.iterate_succ_apply']
  · simp [ha]

theorem At.unary (p : Program) (inputs : Inputs) {m : Machine} {vs : List Float} {v : Float}
    {k j : Nat} (h : m.At g (vs ++ [v]) k j) (op : UnaryOp) :
    ∃ m', m.step p inputs (.unary op) = some m' ∧ m'.At g (vs ++ [op.apply v]) k j := by
  have hheight : m.height = vs.length + 1 := by rw [h.height, List.length_append]; rfl
  have hle := h.height_le
  have htop : m.operand 1 = v := h.operand vs []
  refine ⟨m.replace 1 (op.apply (m.operand 1)), if_pos (by omega), ?_⟩
  rw [htop]
  exact h.replace [v] (by omega) _

theorem At.binary (p : Program) (inputs : Inputs) {m : Machine} {vs : List Float} {x y : Float}
    {k j : Nat} (h : m.At g (vs ++ [x, y]) k j) (op : BinaryOp) :
    ∃ m', m.step p inputs (.binary op) = some m' ∧ m'.At g (vs ++ [op.apply x y]) k j := by
  have hheight : m.height = vs.length + 2 := by rw [h.height, List.length_append]; rfl
  have hle := h.height_le
  have hleft : m.operand 2 = x := h.operand vs [y]
  have hright : m.operand 1 = y :=
    At.operand (vs ++ [x]) [] (by rw [List.append_assoc]; exact h)
  refine ⟨m.replace 2 (op.apply (m.operand 2) (m.operand 1)), if_pos (by omega), ?_⟩
  rw [hleft, hright]
  exact h.replace [x, y] (by omega) _

/-! ## A tree -/

theorem run_cons_of_step {m m' : Machine} {t : Token} (hs : m.step p inputs t = some m')
    (ts : List Token) : m.run p inputs (t :: ts) = m'.run p inputs ts := by
  simp only [run, hs]

/-- Running the post-order of a tree puts its value on top of the values that are there. -/
theorem At.postOrder (inputs : Inputs) (hdepth : p.depth ≤ maxStackDepth) (e : Expression) :
    ∀ {m : Machine} {vs : List Float} {k j : Nat}, m.At g vs k j →
      vs.length + e.need ≤ p.depth → k + e.count .number ≤ p.literals.length →
      ∀ rest, ∃ m' : Machine, m.run p inputs (e.postOrder ++ rest) = m'.run p inputs rest ∧
        m'.At g (vs ++ [e.value inputs (p.literals.getD · 0) g.nth k j])
          (k + e.count .number) (j + e.count .random) := by
  induction e with
  | leaf a =>
    intro m vs k j h hroom hlit rest
    obtain ⟨m', hstep, h'⟩ := h.leaf inputs a hroom hdepth hlit
    exact ⟨m', run_cons_of_step hstep rest, h'⟩
  | unary op e ih =>
    intro m vs k j h hroom hlit rest
    obtain ⟨m₁, hrun, h₁⟩ := ih h hroom hlit (.unary op :: rest)
    obtain ⟨m₂, hstep, h₂⟩ := h₁.unary p inputs op
    refine ⟨m₂, ?_, h₂⟩
    rw [Expression.postOrder, List.append_assoc, List.singleton_append, hrun,
      run_cons_of_step hstep]
  | binary op l r ihl ihr =>
    intro m vs k j h hroom hlit rest
    simp only [Expression.need, Expression.count] at hroom hlit
    obtain ⟨m₁, hrunl, h₁⟩ := ihl h (by omega) (by omega) (r.postOrder ++ .binary op :: rest)
    obtain ⟨m₂, hrunr, h₂⟩ := ihr h₁ (by simp only [List.length_append, List.length_singleton]; omega)
      (by omega) (.binary op :: rest)
    rw [List.append_assoc, List.singleton_append] at h₂
    obtain ⟨m₃, hstep, h₃⟩ := h₂.binary p inputs op
    refine ⟨m₃, ?_, ?_⟩
    · rw [Expression.postOrder, List.append_assoc, List.append_assoc, List.singleton_append, hrunl,
        hrunr, run_cons_of_step hstep]
    · rw [Nat.add_assoc, Nat.add_assoc] at h₃
      exact h₃

end Machine

namespace Evaluator

variable {p : Program} {inputs : Inputs}

theorem means_evaluate {source : String} (hp : Program.compile source = .ok p) (e : Evaluator)
    (inputs : Inputs) :
    p.Means inputs e.random (e.evaluate p inputs).1 ∧
      (e.evaluate p inputs).2.random =
        Generator.next^[p.tokens.count (.atom .random)] e.random := by
  rcases Program.wellFormed_of_compile hp with rfl | hwf
  · exact ⟨.inl ⟨rfl, rfl⟩, rfl⟩
  obtain ⟨x, htokens, hneed, hdepth⟩ := hwf.exists_expression
  have hlit : 0 + x.count .number ≤ p.literals.length := by
    rw [hwf.literals_length, ← htokens, Expression.count_postOrder]
    omega
  have hstart : ({ toEvaluator := e } : Machine).At e.random [] 0 0 := ⟨rfl, rfl, rfl, rfl⟩
  obtain ⟨m, hrun, hm⟩ := hstart.postOrder inputs hdepth x
    (by simp [hneed]) hlit []
  rw [List.append_nil, htokens, Machine.run] at hrun
  have hempty : p.isEmpty = false := by
    rw [Program.isEmpty, List.isEmpty_eq_false_iff]
    exact hwf.tokens_ne_nil
  have hvalue : m.stack[0]?.getD 0 = x.value inputs (p.literals.getD · 0) e.random.nth 0 0 := by
    have := hm.operand [] []
    rwa [Machine.operand, hm.height] at this
  simp only [evaluate, hempty, Bool.false_eq_true, if_false, run?, hwf.depth_pos, hdepth,
    and_self, if_true, hrun, hvalue]
  refine ⟨.inr ⟨x, ⟨htokens, fun x' hx' => ?_⟩, rfl⟩, ?_⟩
  · exact Expression.postOrder_injective (hx'.trans htokens.symm)
  · rw [hm.random, Nat.zero_add, ← htokens, Expression.count_postOrder]

/-- What earlier programs left in the stack does not matter: the evaluation is one on a stack of its
own. -/
theorem evaluate_eq_program {source : String} (hp : Program.compile source = .ok p) (e : Evaluator)
    (inputs : Inputs) :
    (e.evaluate p inputs).1 = (p.evaluate inputs e.random).1 ∧
      (e.evaluate p inputs).2.random = (p.evaluate inputs e.random).2 := by
  obtain ⟨hvalue, hrandom⟩ := means_evaluate hp e inputs
  obtain ⟨hvalue', hrandom'⟩ := means_evaluate hp (ofGenerator e.random) inputs
  exact ⟨hvalue.unique hvalue', hrandom.trans hrandom'.symm⟩

/-! ## Rows of evaluations -/

def evaluateAll : Evaluator → List (Program × Inputs) → List Float × Evaluator
  | e, [] => ([], e)
  | e, (p, inputs) :: jobs =>
    let (v, e) := e.evaluate p inputs
    let (vs, e) := e.evaluateAll jobs
    (v :: vs, e)

/-- The values `vs` are those that programs mean on their inputs, with random numbers drawn on from
one program to the next: from `g` up to `g'`. -/
inductive Meanings : Generator → List (Program × Inputs) → List Float → Generator → Prop where
  | nil (g : Generator) : Meanings g [] [] g
  | cons {g g' : Generator} {p : Program} {inputs : Inputs} {v : Float}
      {jobs : List (Program × Inputs)} {vs : List Float} :
      p.Means inputs g v → Meanings (Generator.next^[p.tokens.count (.atom .random)] g) jobs vs g' →
      Meanings g ((p, inputs) :: jobs) (v :: vs) g'

theorem Meanings.unique {g g' g'' : Generator} {jobs : List (Program × Inputs)} {vs ws : List Float}
    (h : Meanings g jobs vs g') (h' : Meanings g jobs ws g'') : vs = ws ∧ g' = g'' := by
  induction h generalizing ws with
  | nil g => cases h'; exact ⟨rfl, rfl⟩
  | cons hv _ ih =>
    cases h' with
    | cons hw h' =>
      obtain ⟨rfl, rfl⟩ := ih h'
      exact ⟨by rw [hv.unique hw], rfl⟩

/-- The number of random numbers that a row of programs draws. -/
def draws : List (Program × Inputs) → Nat
  | [] => 0
  | (p, _) :: jobs => p.tokens.count (.atom .random) + draws jobs

theorem Meanings.random {g g' : Generator} {jobs : List (Program × Inputs)} {vs : List Float}
    (h : Meanings g jobs vs g') : g' = Generator.next^[draws jobs] g := by
  induction h with
  | nil g => rfl
  | cons _ _ ih =>
    rw [ih, draws, Nat.add_comm, Function.iterate_add_apply]

theorem meanings_evaluateAll {jobs : List (Program × Inputs)}
    (hjobs : ∀ job ∈ jobs, ∃ source, Program.compile source = .ok job.1) (e : Evaluator) :
    Meanings e.random jobs (e.evaluateAll jobs).1 (e.evaluateAll jobs).2.random := by
  induction jobs generalizing e with
  | nil => exact .nil _
  | cons job jobs ih =>
    obtain ⟨p, inputs⟩ := job
    obtain ⟨source, hp⟩ := hjobs _ List.mem_cons_self
    obtain ⟨hv, hg⟩ := means_evaluate hp e inputs
    refine .cons hv ?_
    rw [← hg]
    exact ih (fun job h => hjobs job (List.mem_cons_of_mem _ h)) _

end Evaluator

end Bytebeat
