import Bytebeat.Proofs.Conversion

/-!
# What the conversion refuses

The conversion from infix order looks at parentheses and invalid tokens alone.
The opening parentheses that wait are those that are still open
(`State.step_spec`), however operators are emitted between them, so that a run
stops at the first closing parenthesis without a partner and at no other token
of the language (`State.run_spec`). Hence a list of tokens is converted exactly
if its parentheses are balanced (`postfixOfInfix_parentheses`).
-/

namespace Bytebeat

namespace Infix

/-- A closing parenthesis of `ts` has no partner, if `depth` parentheses are open before `ts`. -/
def Overcloses (depth : Nat) (ts : List Token) : Prop :=
  ∃ us, us <+: ts ∧ us.count .leftParen + depth < us.count .rightParen

theorem not_overcloses_nil (depth : Nat) : ¬Overcloses depth [] := by
  rintro ⟨us, hus, hlt⟩
  rw [List.prefix_nil.1 hus] at hlt
  exact Nat.not_lt_zero _ hlt

theorem overcloses_cons_iff {depth depth' : Nat} {t : Token} {ts : List Token}
    (h : depth' + [t].count .rightParen = depth + [t].count .leftParen) :
    Overcloses depth (t :: ts) ↔ Overcloses depth' ts := by
  have hleft := count_cons_eq_add t .leftParen
  have hright := count_cons_eq_add t .rightParen
  constructor
  · rintro ⟨us, hus, hlt⟩
    rcases List.prefix_cons_iff.1 hus with rfl | ⟨vs, rfl, hvs⟩
    · exact absurd hlt (Nat.not_lt_zero _)
    · rw [hleft vs, hright vs] at hlt
      exact ⟨vs, hvs, by omega⟩
  · rintro ⟨us, hus, hlt⟩
    refine ⟨t :: us, List.cons_prefix_cons.2 ⟨rfl, hus⟩, ?_⟩
    rw [hleft us, hright us]
    omega

theorem balanced_iff {ts : List Token} :
    Balanced ts ↔ ¬Overcloses 0 ts ∧ ts.count .rightParen = ts.count .leftParen :=
  ⟨fun h => ⟨fun ⟨us, hus, hlt⟩ => Nat.not_lt.2 (h.closed_le us hus) hlt, h.closed_eq⟩,
    fun ⟨hclosed, heq⟩ => ⟨fun us hus => Nat.not_lt.1 fun hlt => hclosed ⟨us, hus, hlt⟩, heq⟩⟩

/-! ## Open parentheses -/

/-- The number of parentheses that are open: they wait to be closed. -/
def State.opened (s : State) : Nat := s.waiting.count .leftParen

theorem closeParen?_eq_none_iff {output waiting : List Token} :
    closeParen? output waiting = none ↔ .leftParen ∉ waiting := by
  induction waiting generalizing output with
  | nil => exact ⟨fun _ => List.not_mem_nil, fun _ => rfl⟩
  | cons top waiting ih =>
    rw [closeParen?, List.mem_cons, not_or]
    split
    · rename_i htop
      exact ⟨nofun, fun h => absurd htop.symm h.1⟩
    · rename_i htop
      rw [ih]
      exact (and_iff_right (Ne.symm htop)).symm

theorem finish?_eq_none_iff {output waiting : List Token} :
    finish? output waiting = none ↔ .leftParen ∈ waiting := by
  induction waiting generalizing output with
  | nil => exact ⟨nofun, nofun⟩
  | cons top waiting ih =>
    rw [finish?, List.mem_cons]
    split
    · rename_i htop
      exact ⟨fun _ => .inl htop.symm, fun _ => rfl⟩
    · rename_i htop
      rw [ih, or_iff_right (Ne.symm htop)]

/-- What one token does to the open parentheses. Only a closing parenthesis can be refused, when
none is open. -/
theorem State.step_spec (s : State) (position : Nat) {t : Token} (ht : t ≠ .invalid) :
    (∃ s', s.step position t = .ok s' ∧
        s'.opened + [t].count .rightParen = s.opened + [t].count .leftParen) ∨
      s.step position t = .error .mismatchedParenthesis ∧ t = .rightParen ∧ s.opened = 0 := by
  rw [← s.count_read t (u := .rightParen) rfl, ← s.count_read t (u := .leftParen) rfl,
    ← s.read_eq_iff t (u := .rightParen) rfl]
  rw [ne_eq, ← s.read_eq_iff t (u := .invalid) rfl] at ht
  unfold State.step
  generalize s.read t = t at ht ⊢
  cases t with
  | invalid => exact absurd rfl ht
  | atom a => exact .inl ⟨_, rfl, by simp [State.opened]⟩
  | unary op => exact .inl ⟨_, rfl, by simp [State.opened]⟩
  | leftParen => exact .inl ⟨_, rfl, by simp [State.opened]⟩
  | binary op =>
    obtain ⟨gone, hgone, hwaiting, -⟩ := releaseFor_spec (.binary op) s.output s.waiting
    have hcount := congrArg (List.count .leftParen) hwaiting
    rw [List.count_append, List.count_eq_zero_of_not_mem hgone, Nat.zero_add] at hcount
    exact .inl ⟨_, rfl, by simp [State.opened, hcount]⟩
  | rightParen =>
    simp only
    cases hclose : closeParen? s.output s.waiting with
    | none =>
      exact .inr ⟨rfl, trivial, List.count_eq_zero.2 (closeParen?_eq_none_iff.1 hclose)⟩
    | some result =>
      obtain ⟨output, waiting⟩ := result
      obtain ⟨gone, hgone, hwaiting, -⟩ := closeParen?_spec hclose
      have hcount := congrArg (List.count .leftParen) hwaiting
      rw [List.count_append, List.count_eq_zero_of_not_mem hgone, Nat.zero_add] at hcount
      exact .inl ⟨_, rfl, by simp [State.opened, hcount]⟩

theorem State.run_spec {ts : List Token} (hvalid : .invalid ∉ ts) :
    ∀ (position : Nat) (s : State),
      (∃ s', State.run position s ts = .ok s' ∧ ¬Overcloses s.opened ts ∧
          s'.opened + ts.count .rightParen = s.opened + ts.count .leftParen) ∨
        State.run position s ts = .error .mismatchedParenthesis ∧ Overcloses s.opened ts := by
  induction ts with
  | nil => exact fun position s => .inl ⟨s, rfl, not_overcloses_nil _, rfl⟩
  | cons t ts ih =>
    intro position s
    rw [List.mem_cons, not_or] at hvalid
    rw [State.run, count_cons_eq_add t .leftParen, count_cons_eq_add t .rightParen]
    rcases s.step_spec position (Ne.symm hvalid.1) with ⟨s₁, hs, hopened⟩ | ⟨hs, rfl, hopened⟩
    · rw [hs, overcloses_cons_iff hopened]
      refine (ih hvalid.2 (position + 1) s₁).imp_left ?_
      rintro ⟨s', hrun, hclosed, hparens⟩
      exact ⟨s', hrun, hclosed, by omega⟩
    · rw [hs]
      exact .inr ⟨rfl, [.rightParen], List.prefix_append _ ts, by simp [hopened]⟩

end Infix

open Infix (Balanced Overcloses)

theorem postfixOfInfix_of_valid {ts : List Token} (hvalid : .invalid ∉ ts) :
    (Balanced ts ∧ ∃ us, postfixOfInfix ts = .ok us) ∨
      ¬Balanced ts ∧ postfixOfInfix ts = .error .mismatchedParenthesis := by
  rw [Infix.balanced_iff, postfixOfInfix]
  rcases Infix.State.run_spec hvalid 0 {} with ⟨s, hrun, hclosed, hparens⟩ | ⟨hrun, hclosed⟩
  · rw [hrun]
    replace hparens : s.opened + ts.count .rightParen = ts.count .leftParen :=
      hparens.trans (Nat.zero_add _)
    cases hfinish : Infix.finish? s.output s.waiting with
    | none =>
      have hopen : 0 < s.opened := List.count_pos_iff.2 (Infix.finish?_eq_none_iff.1 hfinish)
      exact .inr ⟨fun h => by omega, by simp only [hfinish]⟩
    | some output =>
      have hnone : s.opened = 0 :=
        List.count_eq_zero.2 fun h => nomatch hfinish ▸ Infix.finish?_eq_none_iff.2 h
      exact .inl ⟨⟨hclosed, by omega⟩, output.reverse, by simp only [hfinish]⟩
  · rw [hrun]
    exact .inr ⟨fun h => h.1 hclosed, rfl⟩

/-- **Tokens of the language are converted exactly if their parentheses are balanced**, whatever
operators and operands stand between them; otherwise the parentheses are reported. An invalid token
is reported where it stands, unless a closing parenthesis before it has no partner. -/
theorem postfixOfInfix_parentheses (ts : List Token) :
    (.invalid ∉ ts →
        (postfixOfInfix ts = .error .mismatchedParenthesis ↔ ¬Balanced ts) ∧
          ((∃ us, postfixOfInfix ts = .ok us) ↔ Balanced ts)) ∧
      ∀ done rest, ts = done ++ .invalid :: rest → .invalid ∉ done →
        (Overcloses 0 done → postfixOfInfix ts = .error .mismatchedParenthesis) ∧
          (¬Overcloses 0 done → postfixOfInfix ts = .error (.unexpectedToken done.length)) := by
  refine ⟨fun hvalid => ?_, ?_⟩
  · rcases postfixOfInfix_of_valid hvalid with ⟨hbalanced, us, hus⟩ | ⟨hbalanced, herror⟩
    · exact ⟨⟨fun h => (nomatch hus.symm.trans h), fun h => absurd hbalanced h⟩,
        ⟨fun _ => hbalanced, fun _ => ⟨us, hus⟩⟩⟩
    · exact ⟨⟨fun _ => hbalanced, fun _ => herror⟩,
        ⟨fun ⟨_, hus⟩ => (nomatch herror.symm.trans hus), fun h => absurd h hbalanced⟩⟩
  · rintro done rest rfl hvalid
    rw [postfixOfInfix, Infix.State.run_append]
    rcases Infix.State.run_spec hvalid 0 {} with ⟨s, hrun, hclosed, -⟩ | ⟨hrun, hclosed⟩
    · rw [hrun]
      refine ⟨fun h => absurd h hclosed, fun _ => ?_⟩
      have hstep : s.step (0 + done.length) .invalid = .error (.unexpectedToken done.length) := by
        rw [Nat.zero_add]; rfl
      simp only [Infix.State.run, hstep]
    · rw [hrun]
      exact ⟨fun _ => rfl, fun h => absurd hclosed h⟩

/-- The second parenthesis that is closed was never opened. -/
theorem postfixOfInfix_parentheses_early_close :
    let done : List Token := [.leftParen, .atom (.input 0), .rightParen, .rightParen, .leftParen]
    .invalid ∉ done ∧ Overcloses 0 done ∧
      postfixOfInfix (done ++ [.invalid]) = .error .mismatchedParenthesis := by
  intro done
  have hvalid : .invalid ∉ done := by decide
  have hclosed : Overcloses 0 done := ⟨done.take 4, List.take_prefix 4 done, by decide⟩
  obtain ⟨-, hinvalid⟩ := postfixOfInfix_parentheses (done ++ [.invalid])
  exact ⟨hvalid, hclosed, (hinvalid done [] rfl hvalid).1 hclosed⟩

end Bytebeat
