import Bytebeat.Proofs.Acceptance
import Bytebeat.Proofs.Folding

/-!
# Signs of literals

The lexer takes a minus sign into the literal right after it. `scanUnsigned`
takes a text apart in which every minus sign is an operator, and `absorb` is
what the lexer makes of it (`Lexer.absorbs_of_unsigned`). Where the text is an
infix expression, a sign taken from between two operands leaves them side by
side, and the text does not compile; a sign taken from before an operand leaves
the grouping as it was, with a negated literal in place of a negation
(`Program.compile_of_unsigned`).
-/

namespace Bytebeat

/-- A token of a text in which literals have no signs. -/
inductive Piece where
  /-- A minus sign, and whether a number starts right after it. -/
  | minus (touching : Bool)
  | number (v : Float)
  | other (t : Token)
  deriving DecidableEq, Repr

namespace Piece

def token : Piece → Token
  | minus _ => .binary .subtract
  | number _ => .atom .number
  | other t => t

def value? : Piece → Option Float
  | number v => some v
  | _ => none

def tokens (ps : List Piece) : List Token := ps.map token

def literals (ps : List Piece) : List Float := ps.filterMap value?

/-- Takes minus signs into the literals right after them. -/
def absorb : List Piece → List Piece
  | minus true :: number v :: ps => number (-v) :: absorb ps
  | p :: ps => p :: absorb ps
  | [] => []

/-- Whether some minus sign stands where no operand is expected and touches a number. -/
def joinsLiteral (expects : Bool) : List Piece → Bool
  | [] => false
  | p :: ps => (!expects && p = minus true) || joinsLiteral (Infix.expectsAfter p.token) ps

/-- Numbers stand where a minus sign touches one, and no literal is without its value. -/
inductive Coherent : List Piece → Prop where
  | nil : Coherent []
  | touching {ps : List Piece} (v : Float) :
      Coherent ps → Coherent (minus true :: number v :: ps)
  | apart {ps : List Piece} : Coherent ps → Coherent (minus false :: ps)
  | number {ps : List Piece} (v : Float) : Coherent ps → Coherent (number v :: ps)
  | other {ps : List Piece} {t : Token} :
      t ≠ .atom .number → Coherent ps → Coherent (other t :: ps)

theorem Coherent.other_ne {ps : List Piece} (h : Coherent ps) :
    ∀ t, Piece.other t ∈ ps → t ≠ .atom .number := by
  induction h with
  | nil => nofun
  | touching v _ ih => simpa using ih
  | apart _ ih => simpa using ih
  | number v _ ih => simpa using ih
  | other ht _ ih =>
    intro u hu
    rcases List.mem_cons.1 hu with heq | hu
    · rwa [Piece.other.inj heq]
    · exact ih u hu

end Piece

namespace Lexer

open Piece (absorb Coherent tokens literals)

def piece? (c : Char) (cs : List Char) : Option (Piece × List Char) :=
  if c = '-' then some (.minus (nextIs startsNumber cs), cs)
  else
    match classify (munch c cs).1 (munch c cs).2 with
    | .ok (_, some v) => some (.number v, (munch c cs).2)
    | .ok (t, none) => some (.other t, (munch c cs).2)
    | .error _ => none

theorem piece?_length {c : Char} {cs : List Char} {p : Piece} {rest : List Char}
    (h : piece? c cs = some (p, rest)) : rest.length ≤ cs.length := by
  unfold piece? at h
  split at h
  · cases h; exact Nat.le_refl _
  · split at h
    · cases h; exact munch_length c cs
    · cases h; exact munch_length c cs
    · cases h

/-- Takes apart a text in which every minus sign is an operator. -/
def scanUnsigned (cs : List Char) : Option (List Piece) :=
  match cs with
  | [] => some []
  | c :: cs =>
    if isGraphic c then
      match _h : piece? c cs with
      | some (p, rest) => (scanUnsigned rest).map (p :: ·)
      | none => none
    else scanUnsigned cs
termination_by cs.length
decreasing_by
  · exact Nat.lt_succ_of_le (piece?_length _h)
  · exact Nat.lt_succ_self _

/-! ## What the lexer makes of signs -/

/-- The pieces `ps` of the text `cs`: the lexer absorbs signs, also one that is put in front of a
number. -/
structure Absorbs (cs : List Char) (ps : List Piece) : Prop where
  coherent : Coherent ps
  scan_eq : ∀ offset, scan offset cs = .ok ⟨tokens (absorb ps), literals (absorb ps)⟩
  signed : nextIs startsNumber cs = true → ∃ v qs, ps = .number v :: qs ∧ Coherent qs ∧
    ∀ offset, scan offset ('-' :: cs) =
      .ok ⟨tokens (.number (-v) :: absorb qs), literals (.number (-v) :: absorb qs)⟩

theorem Absorbs.minus {cs : List Char} {ps : List Piece} (h : Absorbs cs ps) :
    Absorbs ('-' :: cs) (.minus (nextIs startsNumber cs) :: ps) := by
  cases hnext : nextIs startsNumber cs with
  | true =>
    obtain ⟨v, qs, rfl, hqs, hscan⟩ := h.signed hnext
    exact ⟨.touching v hqs, hscan, nofun⟩
  | false =>
    refine ⟨.apart h.coherent, fun offset => ?_, nofun⟩
    have hclass : classify (munch '-' cs).1 (munch '-' cs).2 = .ok (.binary .subtract, none) := by
      rw [munch_minus hnext]
      simp only [classify]
      decide
    rw [scan_cons (by decide) hclass, munch_minus hnext, h.scan_eq]
    rfl

theorem Absorbs.number {c : Char} {cs : List Char} {t : Token} {v : Float} {ps : List Piece}
    (hc : isGraphic c = true)
    (hclass : classify (munch c cs).1 (munch c cs).2 = .ok (t, some v))
    (h : Absorbs (munch c cs).2 ps) : Absorbs (c :: cs) (.number v :: ps) := by
  refine ⟨.number v h.coherent, fun offset => ?_, fun hstart => ⟨v, ps, rfl, h.coherent, ?_⟩⟩
  · rw [scan_cons hc hclass, h.scan_eq, number_of_classify hclass]
    rfl
  · intro offset
    have hstart : startsNumber c = true := by simpa [nextIs] using hstart
    have hcont := continuesNumber_of_startsNumber hstart
    have hmunch : munch '-' (c :: cs) =
        (⟨.number, '-' :: c :: cs.takeWhile continuesNumber⟩, cs.dropWhile continuesNumber) := by
      rw [munch_signed (by simpa [nextIs] using hstart), List.takeWhile_cons_of_pos hcont,
        List.dropWhile_cons_of_pos hcont]
    have hsigned : classify (munch '-' (c :: cs)).1 (munch '-' (c :: cs)).2 =
        .ok (.atom .number, some (-v)) := by
      rw [munch_number hstart] at hclass
      rw [hmunch]
      simp only [classify, readFloat?_minus hstart] at hclass ⊢
      split at hclass
      · rename_i w hw
        cases hclass
        rw [hw]
        rfl
      · cases hclass
    rw [munch_number hstart] at h
    rw [scan_cons (by decide) hsigned, hmunch, h.scan_eq]
    rfl

theorem Absorbs.other {c : Char} {cs : List Char} {t : Token} {ps : List Piece}
    (hc : isGraphic c = true)
    (hclass : classify (munch c cs).1 (munch c cs).2 = .ok (t, none))
    (h : Absorbs (munch c cs).2 ps) : Absorbs (c :: cs) (.other t :: ps) := by
  refine ⟨.other (ne_number_of_classify hclass) h.coherent, fun offset => ?_, fun hstart => ?_⟩
  · rw [scan_cons hc hclass, h.scan_eq]
    rfl
  · have hstart : startsNumber c = true := by simpa [nextIs] using hstart
    rw [munch_number hstart] at hclass
    simp only [classify] at hclass
    split at hclass <;> cases hclass

theorem absorbs_of_unsigned {cs : List Char} {ps : List Piece} (h : scanUnsigned cs = some ps) :
    Absorbs cs ps := by
  fun_induction scanUnsigned cs generalizing ps with
  | case1 => cases h; exact ⟨.nil, fun _ => by rw [scan]; rfl, nofun⟩
  | case2 c cs hc p rest hpiece ih =>
    obtain ⟨qs, hqs, rfl⟩ := Option.map_eq_some_iff.1 h
    have ih := ih hqs
    unfold piece? at hpiece
    split at hpiece
    · rename_i hminus
      cases hpiece
      exact hminus ▸ ih.minus
    · split at hpiece
      · rename_i hclass; cases hpiece; exact ih.number hc hclass
      · rename_i hclass; cases hpiece; exact ih.other hc hclass
      · cases hpiece
  | case3 => cases h
  | case4 c cs hc ih =>
    have hc : isGraphic c = false := by simpa using hc
    refine ⟨(ih h).coherent, fun offset => by rw [scan_skip hc, (ih h).scan_eq], fun hstart => ?_⟩
    have hstart : startsNumber c = true := by simpa [nextIs] using hstart
    rw [isGraphic_of_startsNumber hstart] at hc
    cases hc

end Lexer

/-! ## Signs between operands -/

namespace Piece

open Infix (gaps juxtapositions)

/-- Signs are taken from places where an operand may follow, so that none is missed. -/
theorem gaps_absorb (ps : List Piece) (expects : Bool) :
    gaps expects (tokens (absorb ps)) = gaps expects (tokens ps) := by
  fun_induction absorb ps generalizing expects with
  | case1 v ps ih =>
    have ih := ih false
    simp only [tokens, List.map_cons] at ih ⊢
    simp [gaps, token, Infix.endsOperand, Infix.expectsAfter, ih]
  | case2 p ps hp ih =>
    have ih := ih (Infix.expectsAfter p.token)
    simp only [tokens, List.map_cons] at ih ⊢
    rw [gaps, gaps, ih]
  | case3 => rfl

/-- A literal that a sign has been taken into from between two operands stands right after the
first. -/
theorem juxtapositions_absorb {ps : List Piece} (h : Coherent ps) {expects : Bool}
    (hj : joinsLiteral expects ps = true) : 0 < juxtapositions expects (tokens (absorb ps)) := by
  induction h generalizing expects with
  | nil => cases hj
  | @touching ps v h ih =>
    have hj : expects = false ∨ joinsLiteral false ps = true := by
      simpa [joinsLiteral, token, Infix.expectsAfter] using hj
    rcases hj with rfl | hj
    · exact Nat.add_pos_left Nat.one_pos _
    · exact Nat.add_pos_right _ (ih hj)
  | @apart ps h ih =>
    have hj : joinsLiteral true ps = true := by
      simpa [joinsLiteral, token, Infix.expectsAfter] using hj
    exact Nat.add_pos_right _ (ih hj)
  | @number ps v h ih =>
    have hj : joinsLiteral false ps = true := by
      simpa [joinsLiteral, token, Infix.expectsAfter] using hj
    exact Nat.add_pos_right _ (ih hj)
  | @other ps t ht h ih =>
    have hj : joinsLiteral (Infix.expectsAfter t) ps = true := by
      simpa [joinsLiteral, token] using hj
    exact Nat.add_pos_right _ (ih hj)

end Piece

theorem Infix.juxtapositions_postOrder {e : Expression} (h : gaps true e.postOrder = 0) :
    juxtapositions true e.postOrder = 0 := by
  have hlast (ts : List Token) (t : Token) (ht : expectsAfter t = true) (expects : Bool) :
      gaps expects (ts ++ [t]) ≠ 0 := by
    induction ts generalizing expects with
    | nil => simp [gaps, ht]
    | cons u ts ih => simp [gaps, ih]
  cases e with
  | leaf a => rfl
  | unary op e => exact absurd h (hlast _ _ rfl true)
  | binary op l r => exact absurd h (hlast _ _ rfl true)

theorem Program.exists_error_of_juxtapositions {ts : List Token}
    (hgaps : Infix.gaps true ts = 0) (hj : 0 < Infix.juxtapositions true ts) :
    ∃ error, arrange ts = .error error := by
  cases harr : arrange ts with
  | error e => exact ⟨e, rfl⟩
  | ok result =>
    obtain ⟨us, depth⟩ := result
    obtain ⟨hchecked, hus⟩ := convert_of_arrange harr
    obtain ⟨e, rfl, -⟩ := exists_expression_of_postfixDepth hchecked
    rcases hus with rfl | hconv
    · rw [Infix.juxtapositions_postOrder hgaps] at hj
      cases hj
    · rw [← Infix.gaps_eq_juxtapositions hconv, hgaps] at hj
      cases hj

/-! ## Signs before operands -/

theorem Infix.Derives.foldl_expectsAfter {ts : List Token} (h : Derives ts) (expects : Bool) :
    ts.foldl (fun _ t => expectsAfter t) expects = false := by
  induction h generalizing expects with
  | operand a => rfl
  | unary op _ ih => exact ih true
  | minus _ ih => exact ih true
  | binary op _ _ _ ihr => rw [List.foldl_append]; exact ihr true
  | parens _ _ => rw [List.cons_append, List.foldl_cons, List.foldl_append]; rfl

theorem Infix.Spells.eq_leaf {b : Bool} {e : Expression} {a : Atom} {ts : List Token}
    (h : Spells b e (.atom a :: ts)) (hb : b = false → e.BareOperand) :
    b = false ∧ e = .leaf a ∧ ts = [] := by
  generalize hus : Token.atom a :: ts = us at h
  cases h with
  | leaf a' => cases hus; exact ⟨rfl, rfl, rfl⟩
  | unary op _ _ => cases hus
  | minus _ _ => cases hus
  | binary op _ _ _ _ => exact (hb rfl).elim
  | parens _ => cases hus

namespace Piece

open Infix (Spells)

theorem absorb_cons {p : Piece} {ps : List Piece}
    (h : p = minus true → ∀ v qs, ps ≠ number v :: qs) : absorb (p :: ps) = p :: absorb ps := by
  rw [absorb]
  exact fun v qs hp hps => h hp v qs hps

/-- Signs are taken up within an expression and what follows it, but not across. -/
theorem absorb_append {ps : List Piece} {expects : Bool}
    (h : (tokens ps).foldl (fun _ t => Infix.expectsAfter t) expects = false) (hne : ps ≠ [])
    (qs : List Piece) : absorb (ps ++ qs) = absorb ps ++ absorb qs := by
  fun_induction absorb ps generalizing expects with
  | case1 v ps ih =>
    rcases eq_or_ne ps [] with rfl | hps
    · rfl
    · simp only [List.cons_append, absorb]
      rw [@ih false h hps]
  | case2 p ps hp ih =>
    rcases ps with _ | ⟨q, ps⟩
    · rw [List.singleton_append, absorb_cons]
      · rfl
      · rintro rfl
        cases h
    · rw [List.cons_append, absorb_cons, @ih (Infix.expectsAfter p.token) h (List.cons_ne_nil _ _),
        List.cons_append]
      rintro hminus v rs heq
      rw [List.cons_append, List.cons.injEq] at heq
      exact hp v ps hminus (by rw [heq.1])
  | case3 => exact absurd rfl hne

theorem joinsLiteral_append (ps qs : List Piece) (expects : Bool) :
    joinsLiteral expects (ps ++ qs) = (joinsLiteral expects ps ||
      joinsLiteral ((tokens ps).foldl (fun _ t => Infix.expectsAfter t) expects) qs) := by
  induction ps generalizing expects with
  | nil => rfl
  | cons p ps ih => simp only [List.cons_append, joinsLiteral, ih, Bool.or_assoc]; rfl

theorem joinsLiteral_cons (p : Piece) (ps : List Piece) :
    joinsLiteral true (p :: ps) = joinsLiteral (Infix.expectsAfter p.token) ps := by
  rw [joinsLiteral, Bool.not_true, Bool.false_and, Bool.false_or]

theorem value?_eq_none {p : Piece} (h : p.token ≠ .atom .number) : p.value? = none := by
  cases p with
  | number v => exact absurd rfl h
  | _ => rfl

theorem exists_number {p : Piece} (hp : p.token = .atom .number)
    (hother : ∀ t, p = other t → t ≠ .atom .number) : ∃ v, p = number v := by
  cases p with
  | minus touching => cases hp
  | number v => exact ⟨v, rfl⟩
  | other t => exact absurd hp (hother t rfl)

/-- With signs taken into literals, the pieces `ps` of the tree `e` spell a tree that `e` folds
to. -/
def SpellsFolded (b : Bool) (e : Expression) (ps : List Piece) : Prop :=
  ∃ e', Spells b e' (tokens (absorb ps)) ∧ Folds e (literals ps) e' (literals (absorb ps))

namespace SpellsFolded

variable {b : Bool} {e : Expression} {p : Piece} {ps : List Piece}

theorem leaf {a : Atom} (hp : p.token = .atom a)
    (hother : ∀ t, p = other t → t ≠ .atom .number) : SpellsFolded false (.leaf a) [p] := by
  by_cases ha : a = .number
  · subst ha
    obtain ⟨v, rfl⟩ := exists_number hp hother
    exact ⟨_, .leaf .number, .literal v⟩
  · have hvalue : p.value? = none := value?_eq_none (by simpa [hp] using ha)
    have habsorb : absorb [p] = [p] := absorb_cons fun _ _ _ => nofun
    refine ⟨.leaf a, ?_, ?_⟩
    · simpa [habsorb, tokens, hp] using Spells.leaf a
    · simpa [habsorb, literals, hvalue] using Folds.operand ha

theorem unary {op : UnaryOp} (h : SpellsFolded b e ps) (hb : b = false → e.BareOperand)
    (hp : p.token = .unary op) : SpellsFolded false (.unary op e) (p :: ps) := by
  obtain ⟨e', he', hfold⟩ := h
  have hvalue : p.value? = none := value?_eq_none (by rw [hp]; nofun)
  have habsorb : absorb (p :: ps) = p :: absorb ps := absorb_cons (by rintro rfl; cases hp)
  refine ⟨.unary op e', ?_, ?_⟩
  · simpa [habsorb, tokens, hp] using Spells.unary op he' fun hf => hfold.bareOperand (hb hf)
  · simpa [habsorb, literals, hvalue] using hfold.unary op

theorem minus (h : SpellsFolded b e ps) (hb : b = false → e.BareOperand)
    (hp : p.token = .binary .subtract) (hnext : p = minus true → ∀ v qs, ps ≠ number v :: qs) :
    SpellsFolded false (.unary .negate e) (p :: ps) := by
  obtain ⟨e', he', hfold⟩ := h
  have hvalue : p.value? = none := value?_eq_none (by rw [hp]; nofun)
  have habsorb : absorb (p :: ps) = p :: absorb ps := absorb_cons hnext
  refine ⟨.unary .negate e', ?_, ?_⟩
  · simpa [habsorb, tokens, hp] using Spells.minus he' fun hf => hfold.bareOperand (hb hf)
  · simpa [habsorb, literals, hvalue] using hfold.unary .negate

theorem binary {c : Bool} {l r : Expression} {lps rps : List Piece} {op : BinaryOp}
    (hl : SpellsFolded b l lps)
    (hends : (tokens lps).foldl (fun _ t => Infix.expectsAfter t) true = false)
    (hbl : b = false → l.BareLeft op) (hr : SpellsFolded c r rps)
    (hbr : c = false → r.BareRight op) (hp : p.token = .binary op) (hapart : p ≠ .minus true) :
    SpellsFolded false (.binary op l r) (lps ++ p :: rps) := by
  obtain ⟨l', hl', hfoldl⟩ := hl
  obtain ⟨r', hr', hfoldr⟩ := hr
  have hvalue : p.value? = none := value?_eq_none (by rw [hp]; nofun)
  have hne : lps ≠ [] := by rintro rfl; cases hends
  have habsorb : absorb (lps ++ p :: rps) = absorb lps ++ p :: absorb rps := by
    rw [absorb_append hends hne, absorb_cons fun h => absurd h hapart]
  refine ⟨.binary op l' r', ?_, ?_⟩
  · simpa [habsorb, tokens, hp] using Spells.binary op hl' (fun hf => hfoldl.bareLeft (hbl hf)) hr'
      fun hf => hfoldr.bareRight (hbr hf)
  · simpa [habsorb, literals, hvalue] using hfoldl.binary op hfoldr

theorem parens {q : Piece} (h : SpellsFolded b e ps)
    (hends : (tokens ps).foldl (fun _ t => Infix.expectsAfter t) true = false)
    (hp : p.token = .leftParen) (hq : q.token = .rightParen) :
    SpellsFolded true e (p :: (ps ++ [q])) := by
  obtain ⟨e', he', hfold⟩ := h
  have hpvalue : p.value? = none := value?_eq_none (by rw [hp]; nofun)
  have hqvalue : q.value? = none := value?_eq_none (by rw [hq]; nofun)
  have hne : ps ≠ [] := by rintro rfl; cases hends
  have hlast : absorb [q] = [q] := absorb_cons fun _ _ _ => nofun
  have habsorb : absorb (p :: (ps ++ [q])) = p :: (absorb ps ++ [q]) := by
    rw [absorb_cons (by rintro rfl; cases hp), absorb_append hends hne, hlast]
  refine ⟨e', ?_, ?_⟩
  · simpa [habsorb, tokens, hp, hq] using he'.parens
  · simpa [habsorb, literals, hpvalue, hqvalue] using hfold

end SpellsFolded

/-- An expression in which no sign is taken from between two operands has the same grouping once its
signs are taken into the literals. -/
theorem spellsFolded_of_spells {b : Bool} {e : Expression} {ts : List Token} (h : Spells b e ts) :
    ∀ {ps : List Piece}, tokens ps = ts → (∀ t, Piece.other t ∈ ps → t ≠ .atom .number) →
      joinsLiteral true ps = false → SpellsFolded b e ps := by
  induction h with
  | leaf a =>
    intro ps htokens hother _
    obtain ⟨p, rfl, hp⟩ := List.map_eq_singleton_iff.1 htokens
    exact .leaf hp fun t ht => hother t (ht ▸ List.mem_cons_self)
  | unary op _ hb ih =>
    intro ps htokens hother hj
    obtain ⟨p, ps, rfl, hp, hps⟩ := List.map_eq_cons_iff.1 htokens
    rw [joinsLiteral_cons, hp] at hj
    exact (ih hps (fun t ht => hother t (List.mem_cons_of_mem _ ht)) hj).unary hb hp
  | minus hs hb ih =>
    intro ps htokens hother hj
    obtain ⟨p, ps, rfl, hp, rfl⟩ := List.map_eq_cons_iff.1 htokens
    rw [joinsLiteral_cons, hp] at hj
    by_cases htouch : p = .minus true ∧ ∃ v qs, ps = number v :: qs
    · obtain ⟨rfl, v, qs, rfl⟩ := htouch
      obtain ⟨rfl, rfl, hqs⟩ := hs.eq_leaf hb
      obtain rfl : qs = [] := List.map_eq_nil_iff.1 hqs
      exact ⟨_, .leaf .number, .sign v⟩
    · exact (ih rfl (fun t ht => hother t (List.mem_cons_of_mem _ ht)) hj).minus hb hp
        fun hminus v qs hqs => htouch ⟨hminus, v, qs, hqs⟩
  | binary op hl hbl hr hbr ihl ihr =>
    intro ps htokens hother hj
    obtain ⟨lps, ps, rfl, rfl, hps⟩ := List.map_eq_append_iff.1 htokens
    obtain ⟨p, rps, rfl, hp, rfl⟩ := List.map_eq_cons_iff.1 hps
    have hends := hl.derives.foldl_expectsAfter true
    rw [joinsLiteral_append, tokens, hends, Bool.or_eq_false_iff, joinsLiteral, hp,
      Bool.or_eq_false_iff] at hj
    have hleft := ihl rfl (fun t ht => hother t (List.mem_append_left _ ht)) hj.1
    have hright := ihr rfl
      (fun t ht => hother t (List.mem_append_right _ (List.mem_cons_of_mem _ ht))) hj.2.2
    exact hleft.binary hends hbl hright hbr hp (by simpa using hj.2.1)
  | parens hs ih =>
    intro ps htokens hother hj
    obtain ⟨p, ps, rfl, hp, hps⟩ := List.map_eq_cons_iff.1 htokens
    obtain ⟨ps, qs, rfl, rfl, hqs⟩ := List.map_eq_append_iff.1 hps
    obtain ⟨q, rfl, hq⟩ := List.map_eq_singleton_iff.1 hqs
    rw [joinsLiteral_cons, hp, show Infix.expectsAfter .leftParen = true from rfl,
      joinsLiteral_append, Bool.or_eq_false_iff] at hj
    have hinner := ih rfl
      (fun t ht => hother t (List.mem_cons_of_mem _ (List.mem_append_left _ ht))) hj.1
    exact hinner.parens (hs.derives.foldl_expectsAfter true) hp hq

end Piece

/-! ## Texts -/

namespace Program

open Infix (Derives Spells)
open Piece (absorb joinsLiteral)

/-- **Taking signs into literals never changes what a formula means.** Let a text be an infix
expression when every minus sign in it is an operator. If a minus sign between two operands touches
a number, the text does not compile; else it compiles to the tree intended, with negated literals in
place of the negations of literals. -/
theorem compile_of_unsigned {source : String} {ps : List Piece}
    (hs : Lexer.scanUnsigned source.toList = some ps) (hd : Derives (Piece.tokens ps)) :
    (joinsLiteral true ps = true → ∃ error, compile source = .error error) ∧
      (joinsLiteral true ps = false →
        ∃ b e e', Spells b e (Piece.tokens ps) ∧ (∀ c e₁, Spells c e₁ (Piece.tokens ps) → e₁ = e) ∧
          Folds e (Piece.literals ps) e' (Piece.literals (absorb ps)) ∧
          (∀ inputs draw, e'.value inputs ((Piece.literals (absorb ps)).getD · 0) draw 0 0 =
            e.value inputs ((Piece.literals ps).getD · 0) draw 0 0) ∧
          compile source =
            if e.need ≤ 128 then
              .ok { source, tokens := e'.postOrder, literals := Piece.literals (absorb ps),
                    depth := e.need }
            else .error (.grammatical (.tooDeep e.need 128))) := by
  have habs := Lexer.absorbs_of_unsigned hs
  have htok : tokenize source = .ok ⟨Piece.tokens (absorb ps), Piece.literals (absorb ps)⟩ := habs.scan_eq 0
  constructor
  · intro hj
    have hgaps : Infix.gaps true (Piece.tokens (absorb ps)) = 0 := by
      rw [Piece.gaps_absorb, hd.faultless.2]
    have hjoined := Piece.juxtapositions_absorb habs.coherent hj
    have hne : Piece.tokens (absorb ps) ≠ [] := by
      intro hnil
      rw [hnil] at hjoined
      cases hjoined
    obtain ⟨error, herror⟩ := exists_error_of_juxtapositions hgaps hjoined
    exact ⟨.grammatical error, by rw [compile_of_tokenize htok hne, herror]⟩
  · intro hj
    obtain ⟨b, e, he⟩ := Infix.derives_iff_spells.1 hd
    obtain ⟨e', he', hfold⟩ := Piece.spellsFolded_of_spells he rfl habs.coherent.other_ne hj
    refine ⟨b, e, e', he, fun c e₁ h => h.unique he, hfold, fun inputs draw => ?_, ?_⟩
    · exact hfold.value_eq inputs _ _ draw 0 (fun i hi => by simp [hi]) fun i hi => by simp [hi]
    · rw [compile_of_tokenize htok he'.ne_nil, arrange_of_spells he', hfold.need_eq, maxStackDepth]
      by_cases hneed : e.need ≤ 128 <;> simp [hneed]

/-- Signs before operands, one of them after a minus sign, and a sign between two operands. -/
theorem compile_of_unsigned_differences :
    (∃ error, compile "-2*a-1" = .error error) ∧
      ∃ ps b e e', Lexer.scanUnsigned "-2*(a - b)--.5".toList = some ps ∧
        Spells b e (Piece.tokens ps) ∧
        Folds e (Piece.literals ps) e' (Piece.literals (absorb ps)) ∧
        compile "-2*(a - b)--.5" =
          if e.need ≤ 128 then
            .ok { source := "-2*(a - b)--.5", tokens := e'.postOrder,
                  literals := Piece.literals (absorb ps), depth := e.need }
          else .error (.grammatical (.tooDeep e.need 128)) := by
  have hjoined : Lexer.scanUnsigned "-2*a-1".toList =
      some [.minus true, .number 2, .other (.binary .multiply), .other (.atom (.input 0)),
        .minus true, .number 1] := by decide +kernel
  have hfolded : Lexer.scanUnsigned "-2*(a - b)--.5".toList =
      some [.minus true, .number 2, .other (.binary .multiply), .other .leftParen,
        .other (.atom (.input 0)), .minus false, .other (.atom (.input 1)), .other .rightParen,
        .minus false, .minus true, .number 0.5] := by decide +kernel
  have hleft : Derives [.binary .subtract, .atom .number, .binary .multiply, .leftParen,
      .atom (.input 0), .binary .subtract, .atom (.input 1), .rightParen] :=
    .minus (.binary .multiply (.operand .number)
      (.parens (.binary .subtract (.operand (.input 0)) (.operand (.input 1)))))
  constructor
  · exact (compile_of_unsigned hjoined (.binary .subtract
      (.minus (.binary .multiply (.operand .number) (.operand (.input 0))))
      (.operand .number))).1 (by decide)
  · obtain ⟨b, e, e', hspells, -, hfolds, -, hcompile⟩ := (compile_of_unsigned hfolded
      (.binary .subtract hleft (.minus (.operand .number)))).2 (by decide)
    exact ⟨_, b, e, e', hfolded, hspells, hfolds, hcompile⟩

end Program

end Bytebeat
