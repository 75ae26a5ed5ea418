import Bytebeat.Proofs.Placement
import Bytebeat.Token.Postfix
import Mathlib.Algebra.Group.Nat.Defs
import Mathlib.Algebra.Group.Int.Defs

/-!
# Counting in words of 32 bits

Stack heights and the degrees of nodes are counted as natural numbers. Counted
in machine words they come out the same: a height is at most the number of
tokens (`Postfix.run_le`), and a degree at most the number of connections
(`Patch.inDegrees_le`). So nothing is counted wrongly in fewer than `2 ^ 31`
tokens (`postfixDepth32_eq`) or `2 ^ 32` connections (`Patch.order32_eq`).
-/

namespace Bytebeat

/-! ## Stack heights -/

namespace Postfix

structure Heights32 where
  current : Int32 := 0
  greatest : Int32 := 0
  deriving DecidableEq, Repr

/-- The height changes by the effect of the token, and must not come to nothing. -/
def step32 (position : Nat) (t : Token) (h : Heights32) : Except SyntaxError Heights32 :=
  match t.arity.stackEffect? with
  | none => .error (.unexpectedToken position)
  | some effect =>
    let current := h.current + Int32.ofInt effect
    if current < 1 then .error (.missingOperand position)
    else .ok ⟨current, max h.greatest current⟩

def run32 (position : Nat) (h : Heights32) : List Token → Except SyntaxError Heights32
  | [] => .ok h
  | t :: ts =>
    match step32 position t h with
    | .ok h' => run32 (position + 1) h' ts
    | .error e => .error e

structure Heights32.Holds (w : Heights32) (h : Heights) : Prop where
  current : w.current.toInt = h.current
  greatest : w.greatest.toInt = h.greatest
  current_le : h.current ≤ h.greatest

theorem toInt_max (a b : Int32) : (max a b).toInt = max a.toInt b.toInt := by
  have hmax : max a b = if a ≤ b then b else a := rfl
  by_cases h : a ≤ b
  · rw [hmax, if_pos h, max_eq_right (Int32.le_iff_toInt_le.1 h)]
  · have hlt := Int.not_le.1 (mt Int32.le_iff_toInt_le.2 h)
    rw [hmax, if_neg h, max_eq_left (Int.le_of_lt hlt)]

theorem toInt_add_ofInt {a : Int32} {height effect : Int} (ha : a.toInt = height)
    (heffect : -1 ≤ effect ∧ effect ≤ 1) (hheight : 0 ≤ height) (hfits : height + 1 < 2 ^ 31) :
    (a + Int32.ofInt effect).toInt = height + effect := by
  have hsmall : effect.bmod Int32.size = effect :=
    Int.bmod_eq_of_le (by simp [Int32.size]; omega) (by simp [Int32.size]; omega)
  rw [Int32.toInt_add, Int32.toInt_ofInt, ha, hsmall]
  exact Int.bmod_eq_of_le (by omega) (by omega)

theorem stackEffect?_bounds {arity : Arity} {effect : Int}
    (h : arity.stackEffect? = some effect) : -1 ≤ effect ∧ effect ≤ 1 := by
  cases arity <;> cases h <;> decide

/-- A step adds the effect of the token to the height. -/
theorem step_eq (position : Nat) (t : Token) {h : Heights} (hle : h.current ≤ h.greatest) :
    step position t h =
      match t.arity.stackEffect? with
      | none => .error (.unexpectedToken position)
      | some effect =>
        if (h.current : Int) + effect < 1 then .error (.missingOperand position)
        else .ok ⟨(h.current + effect).toNat, max h.greatest (h.current + effect).toNat⟩ := by
  unfold step
  cases t.arity with
  | structural => rfl
  | nullary => exact (if_neg (by omega)).symm
  | unary =>
    by_cases hlow : h.current < 1
    · simp only [Arity.stackEffect?, if_pos hlow, if_pos (show (h.current : Int) + 0 < 1 by omega)]
    · simp only [Arity.stackEffect?, if_neg hlow, if_neg (show ¬(h.current : Int) + 0 < 1 by omega)]
      simp [max_eq_left hle]
  | binary =>
    by_cases hlow : h.current < 2
    · simp only [Arity.stackEffect?, if_pos hlow, if_pos (show (h.current : Int) + -1 < 1 by omega)]
    · simp only [Arity.stackEffect?, if_neg hlow,
        if_neg (show ¬(h.current : Int) + -1 < 1 by omega)]
      have hsum : ((h.current : Int) + -1).toNat = h.current - 1 := by omega
      rw [hsum, max_eq_left (by omega)]

theorem Heights32.Holds.step {w : Heights32} {h : Heights} (hw : w.Holds h)
    (hfits : h.current + 1 < 2 ^ 31) (position : Nat) (t : Token) :
    (∃ w' h', step32 position t w = .ok w' ∧ step position t h = .ok h' ∧ w'.Holds h') ∨
      ∃ e, step32 position t w = .error e ∧ step position t h = .error e := by
  obtain ⟨hcurrent, hgreatest, hle⟩ := hw
  rw [step32, step_eq position t hle]
  cases heffect : t.arity.stackEffect? with
  | none => exact .inr ⟨_, rfl, rfl⟩
  | some effect =>
    have hsum : (w.current + Int32.ofInt effect).toInt = h.current + effect :=
      toInt_add_ofInt hcurrent (stackEffect?_bounds heffect) (Int.natCast_nonneg _) (by omega)
    have hlow : w.current + Int32.ofInt effect < 1 ↔ (h.current : Int) + effect < 1 := by
      rw [Int32.lt_iff_toInt_lt, hsum]
      rfl
    by_cases hmissing : (h.current : Int) + effect < 1
    · exact .inr ⟨_, if_pos (hlow.2 hmissing), if_pos hmissing⟩
    · refine .inl ⟨_, _, if_neg (mt hlow.1 hmissing), if_neg hmissing, ?_, ?_, le_max_right _ _⟩
      · rw [hsum, Int.toNat_of_nonneg (by omega)]
      · rw [toInt_max, hgreatest, hsum]
        change max _ _ = ((max h.greatest (h.current + effect).toNat : Nat) : Int)
        omega

theorem Heights32.Holds.run {ts : List Token} :
    ∀ {w : Heights32} {h : Heights} (position : Nat), w.Holds h →
      h.current + ts.length < 2 ^ 31 →
      (∃ w' h', run32 position w ts = .ok w' ∧ run position h ts = .ok h' ∧ w'.Holds h') ∨
        ∃ e, run32 position w ts = .error e ∧ run position h ts = .error e := by
  induction ts with
  | nil => exact fun _ hw _ => .inl ⟨_, _, rfl, rfl, hw⟩
  | cons t ts ih =>
    intro w h position hw hfits
    rw [List.length_cons] at hfits
    rw [run32, Postfix.run]
    rcases hw.step (by omega) position t with ⟨w', h', hs, hs', hw'⟩ | ⟨e, hs, hs'⟩
    · have hle := (step_le hs').1
      simp only [hs, hs']
      exact ih (position + 1) hw' (by omega)
    · exact .inr ⟨e, by simp only [hs], by simp only [hs']⟩

end Postfix

def postfixDepth32 (tokens : List Token) : Except SyntaxError Nat :=
  match Postfix.run32 0 {} tokens with
  | .error e => .error e
  | .ok w =>
    if w.current ≠ 1 then .error (.unbalanced w.current.toInt.toNat)
    else if maxStackDepth < w.greatest.toInt.toNat then
      .error (.tooDeep w.greatest.toInt.toNat maxStackDepth)
    else .ok w.greatest.toInt.toNat

/-- **Counting the stack height in words finds what counting it in numbers finds**, in every list of
fewer than `2 ^ 31` tokens. -/
theorem postfixDepth32_eq {tokens : List Token} (h : tokens.length < 2 ^ 31) :
    postfixDepth32 tokens = postfixDepth tokens := by
  rw [postfixDepth32, postfixDepth]
  have hstart : ({} : Postfix.Heights32).Holds {} := ⟨rfl, rfl, Nat.le_refl 0⟩
  have hfits : ({} : Postfix.Heights).current + tokens.length < 2 ^ 31 :=
    (Nat.zero_add tokens.length).symm ▸ h
  rcases hstart.run 0 hfits with ⟨w, heights, hrun, hrun', hw⟩ | ⟨e, hrun, hrun'⟩
  · have hone : w.current = 1 ↔ heights.current = 1 := by
      rw [← Int32.toInt_inj, hw.current]
      exact Int.natCast_inj
    have hgreatest : w.greatest.toInt.toNat = heights.greatest := by
      rw [hw.greatest, Int.toNat_natCast]
    have hcurrent : w.current.toInt.toNat = heights.current := by
      rw [hw.current, Int.toNat_natCast]
    simp only [hrun, hrun', ne_eq, hone, hgreatest, hcurrent]
  · rw [hrun, hrun']

/-! ## Degrees -/

namespace Patch

def inDegrees32 (p : Patch) : Array UInt32 :=
  p.connections.foldl (fun degrees c => degrees.modify c.target.toNat (· + 1))
    (Array.replicate p.nodes.size 0)

theorem toNat_iterate_add_one {n : Nat} (h : n < 2 ^ 32) :
    ((· + 1)^[n] (0 : UInt32)).toNat = n := by
  induction n with
  | zero => rfl
  | succ n ih =>
    rw [Function.iterate_succ_apply', UInt32.toNat_add, ih (Nat.lt_of_succ_lt h)]
    exact Nat.mod_eq_of_lt h

theorem getElem?_inDegrees32 {p : Patch} (h : p.connections.length < 2 ^ 32) (i : Nat) :
    p.inDegrees32[i]?.map UInt32.toNat = p.inDegrees[i]? := by
  rw [inDegrees32, getElem?_foldl_modify, Array.getElem?_replicate]
  by_cases hi : i < p.nodes.size
  · have hcount : p.connections.countP (·.target.toNat = i) < 2 ^ 32 :=
      Nat.lt_of_le_of_lt (inDegrees_le hi (getElem?_inDegrees_countP p hi)) h
    rw [if_pos hi, getElem?_inDegrees_countP p hi, Option.map_some, Option.map_some,
      toNat_iterate_add_one hcount]
  · have hsize : p.inDegrees.size ≤ i := p.size_inDegrees ▸ Nat.le_of_not_lt hi
    rw [if_neg hi, Array.getElem?_eq_none hsize]
    rfl

structure Frontier32 where
  degrees : Array UInt32
  ready : List NodeId
  deriving DecidableEq, Repr

namespace Frontier32

def release (placed : NodeId) (w : Frontier32) (c : Connection) : Frontier32 :=
  let i := c.target.toNat
  if h : c.source = placed ∧ i < w.degrees.size then
    let left := w.degrees[i] - 1
    ⟨w.degrees.set i left, if left = 0 then c.target :: w.ready else w.ready⟩
  else w

def toFrontier (w : Frontier32) : Frontier := ⟨w.degrees.map UInt32.toNat, w.ready⟩

/-- Taking off a connection that its target waits for does not wrap. -/
theorem toFrontier_release {w : Frontier32} {source : NodeId} {c : Connection}
    (h : c.source = source →
      ∀ left, w.toFrontier.degrees[c.target.toNat]? = some left → 0 < left) :
    (w.release source c).toFrontier = w.toFrontier.release source c := by
  by_cases hc : c.source = source ∧ c.target.toNat < w.degrees.size
  · obtain ⟨rfl, hlt⟩ := hc
    have hpos := h rfl w.degrees[c.target.toNat].toNat (by simp [toFrontier, hlt])
    have hleft : (w.degrees[c.target.toNat] - 1).toNat = w.degrees[c.target.toNat].toNat - 1 :=
      UInt32.toNat_sub_of_le _ _ (UInt32.le_iff_toNat_le.2 hpos)
    have hzero : w.degrees[c.target.toNat] - 1 = 0 ↔ w.degrees[c.target.toNat].toNat - 1 = 0 := by
      rw [← UInt32.toNat_inj, hleft]
      rfl
    simp [release, Frontier.release, toFrontier, hlt, hleft, hzero]
  · have hc' : ¬(c.source = source ∧ c.target.toNat < (w.degrees.map UInt32.toNat).size) := by
      rwa [Array.size_map]
    rw [release, dif_neg hc, Frontier.release_of_not hc']

theorem toFrontier_foldl_release {source : NodeId} (cs : List Connection) :
    ∀ {w : Frontier32}, Frontier.Releases source cs w.toFrontier →
      (cs.foldl (release source) w).toFrontier =
        cs.foldl (Frontier.release source) w.toFrontier := by
  induction cs with
  | nil => exact fun _ => rfl
  | cons c cs ih =>
    intro w h
    have hstep := toFrontier_release fun hsource => h [] c cs rfl hsource
    rw [List.foldl_cons, List.foldl_cons, ih, hstep]
    rw [hstep]
    exact fun done c' rest hsplit => h (c :: done) c' rest (congrArg (List.cons c) hsplit)

end Frontier32

def place32 (connections : List Connection) : Nat → List NodeId → Frontier32 → List NodeId
  | 0, placed, _ => placed
  | fuel + 1, placed, w =>
    match w.ready with
    | [] => placed
    | id :: ready =>
      place32 connections fuel (id :: placed)
        (connections.foldl (Frontier32.release id) { w with ready })

def frontier32 (p : Patch) : Frontier32 :=
  let degrees := p.inDegrees32
  let ids := (List.range (p.nodes.size % UInt16.size)).filter fun i => degrees[i]? == some 0
  ⟨degrees, ids.map UInt16.ofNat⟩

def order32 (p : Patch) : Except WiringError (List NodeId) :=
  let placed := place32 p.connections p.nodes.size [] p.frontier32
  if placed.length < p.nodes.size then .error .cycle else .ok placed.reverse

theorem place32_eq {cs : List Connection} {n fuel : Nat} :
    ∀ {placed : List NodeId} {w : Frontier32},
      w.toFrontier.Sound n (held cs placed) placed →
      place32 cs fuel placed w = place cs fuel placed w.toFrontier := by
  induction fuel with
  | zero => exact fun _ => rfl
  | succ fuel ih =>
    rintro placed ⟨degrees, ready⟩ h
    cases ready with
    | nil => rfl
    | cons id ready =>
      have hreleased := Frontier32.toFrontier_foldl_release cs (w := ⟨degrees, ready⟩)
        (h.releases rfl)
      refine (ih ?_).trans (congrArg _ hreleased)
      rw [hreleased]
      exact h.place rfl

theorem toFrontier_frontier32 {p : Patch} (h : p.connections.length < 2 ^ 32) :
    p.frontier32.toFrontier = p.frontier := by
  have hdegrees : p.inDegrees32.map UInt32.toNat = p.inDegrees :=
    Array.ext_getElem? fun i => by rw [Array.getElem?_map, getElem?_inDegrees32 h]
  have hzero (i : Nat) : (p.inDegrees32[i]? == some 0) = (p.inDegrees[i]? == some 0) := by
    rw [← getElem?_inDegrees32 h i]
    cases p.inDegrees32[i]? with
    | none => rfl
    | some degree => simp [← UInt32.toNat_inj]
  simp only [frontier32, Frontier32.toFrontier, frontier, hdegrees, hzero]

/-- **Counting degrees in words finds the same order**, or none, in every patch with fewer than
`2 ^ 32` connections. -/
theorem order32_eq {p : Patch} (h : p.connections.length < 2 ^ 32) : p.order32 = p.order := by
  have hfrontier := toFrontier_frontier32 h
  rw [order32, order, place32_eq (hfrontier ▸ p.frontier_sound), hfrontier]

end Patch

end Bytebeat
