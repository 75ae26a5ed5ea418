import Bytebeat.Proofs.Compiled
import Bytebeat.Proofs.LexicalGrammar

/-!
# Reordering

Where the tokens that are converted from infix order go. Each token is followed
from the place it is read at (`State.Traces`): an operand comes out at once, so
that nothing comes out before it but what was read before it. Hence the
conversion moves operators only, and these only behind operands that stand
before them (`Infix.Moves`); and the literals of a program belong to the
operands that they were written as (`Program.ValuesAsWritten`).
-/

namespace Bytebeat

def Token.isOperator : Token → Bool
  | unary _ | binary _ => true
  | _ => false

theorem Token.isExecutable_of_isOperator {t : Token} (h : t.isOperator = true) :
    t.isExecutable = true := by
  cases t with
  | unary _ | binary _ => rfl
  | atom | leftParen | rightParen | invalid => cases h

theorem Token.operand?_of_isOperator {t : Token} (h : t.isOperator = true) : t.operand? = none := by
  cases t with
  | unary _ | binary _ => rfl
  | atom | leftParen | rightParen | invalid => cases h

namespace Infix

/-! ## Signs -/

/-- Whether a term starts at place `i`: at the start, after an opening parenthesis or after an
operator. -/
def startsTerm (ts : List Token) (i : Nat) : Bool :=
  i == 0 || ts[i - 1]?.any fun t => t == .leftParen || t.isOperator

/-- The tokens with each minus sign that starts a term taken for a negation. -/
def signed (ts : List Token) : List Token :=
  ts.mapIdx fun i t => if t = .binary .subtract ∧ startsTerm ts i = true then .unary .negate else t

theorem getElem?_readings (expects : Bool) (ts : List Token) (i : Nat) :
    (readings expects ts)[i]? = ts[i]?.map fun t =>
      State.read { expectsOperand := if i = 0 then expects else ts[i - 1]?.any expectsAfter } t := by
  induction ts generalizing expects i with
  | nil => rfl
  | cons t ts ih =>
    cases i with
    | zero => rfl
    | succ i =>
      rw [readings, List.getElem?_cons_succ, ih, List.getElem?_cons_succ]
      cases i <;> simp

theorem expectsAfter_eq {t : Token} (h : t ≠ .invalid) :
    expectsAfter t = (t == .leftParen || t.isOperator) := by
  cases t with
  | invalid => exact absurd rfl h
  | atom | unary | binary | leftParen | rightParen => rfl

theorem readings_eq_signed {ts : List Token} (h : .invalid ∉ ts) :
    readings true ts = signed ts := by
  refine List.ext_getElem? fun i => ?_
  rw [getElem?_readings, signed, List.getElem?_mapIdx]
  have hstarts : (if i = 0 then true else ts[i - 1]?.any expectsAfter) = startsTerm ts i := by
    cases i with
    | zero => rfl
    | succ i =>
      rw [startsTerm, if_neg (Nat.succ_ne_zero i), beq_false_of_ne (Nat.succ_ne_zero i),
        Bool.false_or]
      cases hprev : ts[i + 1 - 1]? with
      | none => rfl
      | some t => exact expectsAfter_eq fun heq => h (heq ▸ List.mem_of_getElem? hprev)
  rw [hstarts]
  rfl

/-! ## Places -/

/-- What a conversion holds after it has read `seen`, each token with the place it was read at. Only
what was read before an operand was put out before it. -/
structure State.Traces (s : State) (seen : List Token) (out held : List (Token × Nat)) : Prop where
  output : out.map Prod.fst = s.output
  waiting : held.map Prod.fst = s.waiting
  perm : ((held ++ out).filter (·.1.isExecutable)).Perm (seen.zipIdx.filter (·.1.isExecutable))
  executable : ∀ o ∈ out, o.1.isExecutable = true
  operator : ∀ o ∈ held, o.1 = .leftParen ∨ o.1.isOperator = true
  order : out.Pairwise fun late early => late.1.operand?.isSome = true → early.2 < late.2

variable {s s' : State} {seen : List Token} {out held : List (Token × Nat)} {t : Token}

theorem State.Traces.place_lt (h : s.Traces seen out held) {o : Token × Nat} (ho : o ∈ out) :
    o.2 < seen.length := by
  have hmem : o ∈ seen.zipIdx.filter (·.1.isExecutable) :=
    h.perm.mem_iff.1 (List.mem_filter.2 ⟨List.mem_append_right _ ho, h.executable o ho⟩)
  exact List.snd_lt_of_mem_zipIdx (List.mem_filter.1 hmem).1

theorem State.Traces.emit {gone waiting : List Token} (h : s.Traces seen out held)
    (hp : .leftParen ∉ gone) (hw : s.waiting = gone ++ waiting) (expects : Bool) :
    ∃ out' held', State.Traces ⟨gone.reverse ++ s.output, waiting, expects⟩ seen out' held' := by
  obtain ⟨houtput, hwaiting, hperm, hexec, hop, horder⟩ := h
  obtain ⟨left, rest, rfl, rfl, rfl⟩ := List.map_eq_append_iff.1 (hwaiting.trans hw)
  have hleft : ∀ o ∈ left, o.1.isOperator = true := fun o ho =>
    (hop o (List.mem_append_left _ ho)).resolve_left fun heq =>
      hp (heq ▸ List.mem_map_of_mem ho)
  refine ⟨left.reverse ++ out, rest, by rw [List.map_append, List.map_reverse, houtput], rfl,
    (perm_emit left rest out).filter _ |>.trans hperm, fun o ho => ?_,
    fun o ho => hop o (List.mem_append_right _ ho), ?_⟩
  · rcases List.mem_append.1 ho with ho | ho
    · exact Token.isExecutable_of_isOperator (hleft o (List.mem_reverse.1 ho))
    · exact hexec o ho
  · have hlate : ∀ o ∈ left.reverse, o.1.operand? = none := fun o ho =>
      Token.operand?_of_isOperator (hleft o (List.mem_reverse.1 ho))
    refine List.pairwise_append.2 ⟨?_, horder, fun o ho _ _ hsome => ?_⟩
    · refine List.pairwise_of_forall_mem_list fun o ho _ _ hsome => ?_
      rw [hlate o ho] at hsome
      cases hsome
    · rw [hlate o ho] at hsome
      cases hsome

theorem State.Traces.wait (h : s.Traces seen out held) (ht : t = .leftParen ∨ t.isOperator = true)
    (expects : Bool) :
    State.Traces ⟨s.output, t :: s.waiting, expects⟩ (seen ++ [t]) out
      ((t, seen.length) :: held) := by
  obtain ⟨houtput, hwaiting, hperm, hexec, hop, horder⟩ := h
  refine ⟨houtput, by rw [List.map_cons, hwaiting], ?_, hexec, List.forall_mem_cons.2 ⟨ht, hop⟩,
    horder⟩
  rw [List.zipIdx_append, Nat.zero_add]
  exact perm_filter_snoc hperm _

theorem State.Traces.step {position : Nat} (h : s.Traces seen out held)
    (hs : s.step position t = .ok s') :
    ∃ out' held', s'.Traces (seen ++ [s.read t]) out' held' := by
  unfold State.step at hs
  generalize s.read t = t at hs ⊢
  cases t with
  | invalid => cases hs
  | atom a =>
    cases hs
    have hlt := fun o ho => h.place_lt (o := o) ho
    obtain ⟨houtput, hwaiting, hperm, hexec, hop, horder⟩ := h
    refine ⟨(.atom a, seen.length) :: out, held, by rw [List.map_cons, houtput], hwaiting, ?_,
      List.forall_mem_cons.2 ⟨rfl, hexec⟩, hop,
      List.pairwise_cons.2 ⟨fun o ho _ => hlt o ho, horder⟩⟩
    rw [List.zipIdx_append, Nat.zero_add]
    exact (List.perm_middle.filter _).trans (perm_filter_snoc hperm _)
  | unary op => cases hs; exact ⟨_, _, h.wait (.inr rfl) true⟩
  | leftParen => cases hs; exact ⟨_, _, h.wait (.inl rfl) true⟩
  | binary op =>
    cases hs
    obtain ⟨gone, hp, hgone, hout⟩ := releaseFor_spec (.binary op) s.output s.waiting
    rw [hout]
    obtain ⟨out', held', h'⟩ := h.emit hp hgone true
    exact ⟨_, _, h'.wait (.inr rfl) true⟩
  | rightParen =>
    simp only at hs
    split at hs
    · rename_i output waiting hclose
      cases hs
      obtain ⟨gone, hp, hgone, rfl⟩ := closeParen?_spec hclose
      obtain ⟨out', held', houtput, hwaiting, hperm, hexec, hop, horder⟩ := h.emit hp hgone false
      obtain ⟨⟨_, place⟩, rest, rfl, rfl, rfl⟩ := List.map_eq_cons_iff.1 hwaiting
      refine ⟨out', rest, houtput, rfl, ?_, hexec, fun o ho => hop o (List.mem_cons_of_mem _ ho),
        horder⟩
      simpa [List.zipIdx_append, Token.isExecutable, Token.arity] using hperm
    · cases hs

theorem State.Traces.run {ts : List Token} :
    ∀ {s s' : State} {seen : List Token} {out held : List (Token × Nat)} {position : Nat},
      s.Traces seen out held → State.run position s ts = .ok s' →
      ∃ out' held', s'.Traces (seen ++ readings s.expectsOperand ts) out' held' := by
  induction ts with
  | nil =>
    intro s s' seen out held position h hrun
    cases hrun
    exact ⟨out, held, by rwa [readings, List.append_nil]⟩
  | cons t ts ih =>
    intro s s' seen out held position h hrun
    unfold State.run at hrun
    split at hrun
    · rename_i s₁ hs
      obtain ⟨out₁, held₁, h₁⟩ := h.step hs
      have hrest := ih h₁ hrun
      rwa [State.expectsOperand_of_step hs, List.append_assoc, List.singleton_append] at hrest
    · cases hrun

/-- The tokens that come out, each with the place it was read at. -/
theorem exists_trace_of_postfixOfInfix {ts us : List Token} (h : postfixOfInfix ts = .ok us) :
    ∃ trace : List (Token × Nat), trace.map Prod.fst = us ∧
      trace.Perm ((signed ts).zipIdx.filter (·.1.isExecutable)) ∧
      trace.Pairwise fun early late => late.1.operand?.isSome = true → early.2 < late.2 := by
  rw [← readings_eq_signed (invalid_not_mem_of_postfixOfInfix h)]
  unfold postfixOfInfix at h
  split at h
  · cases h
  · rename_i s hrun
    have hstart : State.Traces {} [] [] [] := ⟨rfl, rfl, .refl _, nofun, nofun, .nil⟩
    obtain ⟨out, held, hs⟩ := hstart.run hrun
    split at h
    · rename_i output hfinish
      cases h
      obtain ⟨hp, rfl⟩ := finish?_spec hfinish
      obtain ⟨out', held', houtput, hwaiting, hperm, hexec, -, horder⟩ :=
        hs.emit hp (List.append_nil _).symm true
      obtain rfl : held' = [] := List.map_eq_nil_iff.1 hwaiting
      rw [List.nil_append, List.filter_eq_self.2 hexec] at hperm
      exact ⟨out'.reverse, by rw [List.map_reverse, houtput], (List.reverse_perm _).trans hperm,
        List.pairwise_reverse.2 horder⟩
    · cases h

/-- How the conversion of `ts` to `us` moves tokens. All but the parentheses come out: the operands
as they are, and the operators with minus signs that start a term taken for negations. The token at
place `places[k]` comes out at `k`, after all operands that stand before it. -/
structure Moves (ts us : List Token) : Prop where
  executable : ∀ t ∈ us, t.isExecutable = true
  operands_eq : operands us = operands ts
  operators_perm : (us.filter Token.isOperator).Perm ((signed ts).filter Token.isOperator)
  exists_places : ∃ places : List Nat, places.Nodup ∧
    (∀ i, i ∈ places ↔ ∃ t, ts[i]? = some t ∧ t.isExecutable = true) ∧
    us.map some = places.map ((signed ts)[·]?) ∧
    ∀ done i rest, places = done ++ i :: rest →
      ∀ j < i, (∃ a, ts[j]? = some (.atom a)) → j ∈ done

theorem getElem?_signed (ts : List Token) (i : Nat) :
    (signed ts)[i]? = ts[i]? ∨
      ts[i]? = some (.binary .subtract) ∧ (signed ts)[i]? = some (.unary .negate) := by
  rw [signed, List.getElem?_mapIdx]
  cases hi : ts[i]? with
  | none => exact .inl rfl
  | some t =>
    rw [Option.map_some]
    split
    · rename_i hminus
      exact .inr ⟨by rw [hminus.1], rfl⟩
    · exact .inl rfl

theorem exists_signed_iff {p : Token → Prop} (hp : p (.binary .subtract) ↔ p (.unary .negate))
    (ts : List Token) (i : Nat) :
    (∃ t, (signed ts)[i]? = some t ∧ p t) ↔ ∃ t, ts[i]? = some t ∧ p t := by
  rcases getElem?_signed ts i with hsame | ⟨hminus, hnegate⟩
  · rw [hsame]
  · rw [hminus, hnegate]
    simpa using hp.symm

theorem moves_of_postfixOfInfix {ts us : List Token} (h : postfixOfInfix ts = .ok us) :
    Moves ts us := by
  have hperm := perm_of_postfixOfInfix h
  refine ⟨fun t ht => (List.mem_filter.1 (hperm.mem_iff.1 ht)).2, operands_of_postfixOfInfix h,
    ?_, ?_⟩
  · rw [readings_eq_signed (invalid_not_mem_of_postfixOfInfix h)] at hperm
    have hoperators := hperm.filter Token.isOperator
    rw [List.filter_filter] at hoperators
    refine hoperators.trans (.of_eq (List.filter_congr fun t _ => ?_))
    cases ht : t.isOperator with
    | false => rfl
    | true => exact Token.isExecutable_of_isOperator ht
  obtain ⟨trace, rfl, htrace, horder⟩ := exists_trace_of_postfixOfInfix h
  have hmem : ∀ {t i}, (t, i) ∈ trace ↔ (signed ts)[i]? = some t ∧ t.isExecutable = true := by
    intro t i
    rw [htrace.mem_iff, List.mem_filter, List.mem_zipIdx_iff_getElem?]
  have hplaces : ∀ i, i ∈ trace.map Prod.snd ↔ ∃ t, ts[i]? = some t ∧ t.isExecutable = true := by
    intro i
    rw [← exists_signed_iff (p := fun t => t.isExecutable = true) Iff.rfl, List.mem_map]
    constructor
    · rintro ⟨⟨t, _⟩, ht, rfl⟩
      exact ⟨t, hmem.1 ht⟩
    · rintro ⟨t, ht⟩
      exact ⟨(t, i), hmem.2 ht, rfl⟩
  have hnodup : (trace.map Prod.snd).Nodup := by
    have hsub := (List.filter_sublist (p := fun o : Token × Nat => o.1.isExecutable)
      (l := (signed ts).zipIdx)).map Prod.snd
    rw [List.zipIdx_map_snd] at hsub
    exact (htrace.map Prod.snd).nodup_iff.2 (hsub.nodup List.nodup_range')
  refine ⟨trace.map Prod.snd, hnodup, hplaces, ?_, ?_⟩
  · rw [List.map_map, List.map_map]
    exact List.map_congr_left fun o ho => (hmem.1 ho).1.symm
  · rintro done i rest hsplit j hlt ⟨a, hj⟩
    have hin : j ∈ done ++ i :: rest := hsplit ▸ (hplaces j).2 ⟨_, hj, rfl⟩
    rcases List.mem_append.1 hin with hdone | hrest
    · exact hdone
    rcases List.mem_cons.1 hrest with rfl | hrest
    · exact absurd hlt (Nat.lt_irrefl _)
    -- An operand that comes out after the token at `i` was read after it.
    have horder' : (trace.map Prod.snd).Pairwise fun i j => (∃ a, ts[j]? = some (.atom a)) → i < j := by
      refine List.pairwise_map.2 (horder.imp_of_mem fun {early late} _ hlate hless ⟨b, hb⟩ => hless ?_)
      rcases getElem?_signed ts late.2 with hsame | ⟨hminus, -⟩
      · rw [(hmem.1 hlate).1, hb, Option.some.injEq] at hsame
        rw [hsame]
        rfl
      · rw [hb] at hminus
        cases hminus
    rw [hsplit, List.pairwise_append, List.pairwise_cons] at horder'
    exact absurd (horder'.2.1.1 j hrest ⟨a, hj⟩) (Nat.lt_asymm hlt)

end Infix

/-! ## Literals -/

/-- Operands with the values of the literals among them, for which `vs` holds one after the
other. -/
def valued : List Atom → List Float → List (Atom × Option Float)
  | [], _ => []
  | .number :: as, vs => (.number, vs.head?) :: valued as vs.tail
  | a :: as, vs => (a, none) :: valued as vs

theorem valued_cons_of_ne {a : Atom} (ha : a ≠ .number) (as : List Atom) (vs : List Float) :
    valued (a :: as) vs = (a, none) :: valued as vs := by
  cases a with
  | number => exact absurd rfl ha
  | pi | twoPi | halfPi | e | random | reading | input => rfl

theorem valued_of_parts {parts : List Lexer.Part}
    (h : ∀ l ∈ parts, l.value.isSome = true ↔ l.token = .atom .number) :
    valued (operands (parts.map (·.token))) (parts.filterMap (·.value)) =
      parts.filterMap fun l => l.token.operand?.map (·, l.value) := by
  induction parts with
  | nil => rfl
  | cons l parts ih =>
    obtain ⟨hl, hparts⟩ := List.forall_mem_cons.1 h
    obtain ⟨spelling, token, value⟩ := l
    have hnone : token ≠ .atom .number → value = none := fun hne =>
      Option.not_isSome_iff_eq_none.1 fun hsome => hne (hl.1 hsome)
    rw [List.map_cons, operands_cons]
    cases token with
    | atom a =>
      by_cases ha : a = .number
      · subst ha
        obtain ⟨v, rfl⟩ : ∃ v, value = some v := Option.isSome_iff_exists.1 (hl.2 rfl)
        exact congrArg ((Atom.number, some v) :: ·) (ih hparts)
      · obtain rfl : value = none := hnone fun heq => ha (Token.atom.inj heq)
        exact (valued_cons_of_ne ha _ _).trans (congrArg ((a, none) :: ·) (ih hparts))
    | unary | binary | leftParen | rightParen | invalid =>
      obtain rfl : value = none := hnone nofun
      exact ih hparts

/-- The operands of the program of a text have the values that the text has in their places. -/
def Program.ValuesAsWritten (source : String) (p : Program) : Prop :=
  ∃ parts, Lexer.Splits source.toList parts ∧
    valued (operands p.tokens) p.literals =
      parts.filterMap fun l => l.token.operand?.map (·, l.value)

theorem Program.valuesAsWritten_of_compile {source : String} {p : Program}
    (h : compile source = .ok p) : ValuesAsWritten source p := by
  obtain ⟨t, ht, hp⟩ := exists_arrange_of_compile h
  obtain ⟨parts, hparts, rfl⟩ := Lexer.exists_splits_of_scan ht
  refine ⟨parts, hparts, ?_⟩
  rw [← valued_of_parts hparts.value_isSome_iff]
  rcases hp with ⟨hnil, rfl⟩ | ⟨us, depth, harr, rfl⟩
  · obtain rfl : parts = [] := List.map_eq_nil_iff.1 hnil
    rfl
  · rw [operands_of_arrange harr]
    rfl

/-- **The conversion moves operators only, loses none and makes none**, whatever the list of tokens;
no operator comes out before an operand that stands before it. So the literals of every program
are those written in its text, each in its place. -/
theorem postfixOfInfix_moves :
    (∀ ts us, postfixOfInfix ts = .ok us → Infix.Moves ts us) ∧
      ∀ source p, Program.compile source = .ok p → Program.ValuesAsWritten source p :=
  ⟨fun _ _ => Infix.moves_of_postfixOfInfix, fun _ _ => Program.valuesAsWritten_of_compile⟩

/-- `- ( a - 2 ) 3 +` is no expression, but its tokens are converted; in `4 - 2 * -(3 - pi)` the
operators of the program come in another order than in the text. -/
theorem postfixOfInfix_moves_signs :
    (∃ us, postfixOfInfix [.binary .subtract, .leftParen, .atom (.input 0), .binary .subtract,
        .atom .number, .rightParen, .atom .number, .binary .add] = .ok us ∧
      Infix.Moves [.binary .subtract, .leftParen, .atom (.input 0), .binary .subtract,
        .atom .number, .rightParen, .atom .number, .binary .add] us) ∧
      ∃ p, Program.compile "4 - 2 * -(3 - pi)" = .ok p ∧
        Program.ValuesAsWritten "4 - 2 * -(3 - pi)" p := by
  have hconv : postfixOfInfix [.binary .subtract, .leftParen, .atom (.input 0), .binary .subtract,
      .atom .number, .rightParen, .atom .number, .binary .add] =
        .ok [.atom (.input 0), .atom .number, .binary .subtract, .atom .number, .unary .negate,
          .binary .add] := by decide
  have hcomp : Program.compile "4 - 2 * -(3 - pi)" = .ok {
      source := "4 - 2 * -(3 - pi)"
      tokens := [.atom .number, .atom .number, .atom .number, .atom .pi, .binary .subtract,
        .unary .negate, .binary .multiply, .binary .subtract]
      literals := [4, 2, 3]
      depth := 4 } := by decide +kernel
  exact ⟨⟨_, hconv, postfixOfInfix_moves.1 _ _ hconv⟩,
    ⟨_, hcomp, postfixOfInfix_moves.2 _ _ hcomp⟩⟩

end Bytebeat
