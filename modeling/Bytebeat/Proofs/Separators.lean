import Bytebeat.Proofs.LexicalErrors

/-!
# Texts with separators between them

The lexer looks one character ahead, and a separator tells it no more than the
end of the text does (`Lexer.scan_append`). So two texts with a separator
between them are taken apart one after the other, each as it would be by itself
(`tokenize_append_separators`).
-/

namespace Bytebeat

def LexError.shift (n : Nat) (e : LexError) : LexError := { e with offset := e.offset + n }

def TokenText.append (t t' : TokenText) : TokenText :=
  ⟨t.tokens ++ t'.tokens, t.literals ++ t'.literals⟩

namespace Lexer

variable {cs tail : List Char} {parts : List Part}

theorem scan_add (offset n : Nat) (cs : List Char) :
    scan (offset + n) cs = (scan offset cs).mapError (LexError.shift n) := by
  fun_induction scan offset cs with
  | case1 => rw [scan]; rfl
  | case2 offset c cs hc m fault hclass =>
    rw [scan, if_pos hc]
    simp only [m] at hclass ⊢
    simp only [hclass]
    rfl
  | case3 offset c cs hc m t value hclass =>
    rename_i ih
    rw [scan_cons hc hclass, Nat.add_right_comm, ih]
    cases scan (offset + m.1.spelling.length) m.2 <;> rfl
  | case4 offset c cs hc ih => rw [scan_skip (Bool.eq_false_iff.2 hc), Nat.add_right_comm, ih]

theorem scan_separators (h : ∀ c ∈ cs, isGraphic c = false) (offset : Nat) (tail : List Char) :
    scan offset (cs ++ tail) = scan (offset + String.utf8Len cs) tail := by
  have hrow : Row tail cs [] := by
    induction cs with
    | nil => exact .nil
    | cons c cs ih =>
      exact .separator (h c List.mem_cons_self) (ih fun d hd => h d (List.mem_cons_of_mem c hd))
  rw [hrow.scan_eq]
  show (scan (offset + String.utf8Len cs) tail).map id = _
  cases scan (offset + String.utf8Len cs) tail <;> rfl

theorem Splits.row (h : Splits cs parts) (htail : graphicHead tail = none) : Row tail cs parts := by
  have hrow : Row [] cs parts := by
    induction h with
    | nil => exact .nil
    | separator hc _ ih => exact .separator hc ih
    | lexeme hl _ ih => exact .lexeme (by rwa [List.append_nil]) ih
  exact hrow.congr fun d hd => by rw [htail] at hd; cases hd

theorem graphicHead_append (htail : graphicHead tail = none) (cs : List Char) :
    graphicHead (cs ++ tail) = graphicHead cs := by
  cases cs with
  | nil => exact htail
  | cons c cs => rfl

/-- A text with nothing printable right after it is taken apart as it is by itself, and then what
comes after it. -/
theorem scan_append (htail : graphicHead tail = none) (offset : Nat) (cs : List Char) :
    scan offset (cs ++ tail) =
      (scan offset cs).bind fun t => (scan (offset + String.utf8Len cs) tail).map t.append := by
  cases hcs : scan offset cs with
  | ok t =>
    obtain ⟨parts, hparts, rfl⟩ := exists_splits_of_scan hcs
    exact (hparts.row htail).scan_eq offset
  | error e =>
    -- What the faulty lexeme is has been settled before the end of `cs`.
    obtain ⟨done, parts, bad, rest, rfl, hrow, hfault, hspelling, hoffset⟩ :=
      scan_eq_error_iff.1 hcs
    refine scan_eq_error_iff.2 ⟨done, parts, bad, rest ++ tail, ?_, hrow.congr ?_, ?_, hspelling,
      hoffset⟩
    · rw [List.append_assoc, List.append_assoc]
    · rw [← List.append_assoc, graphicHead_append htail]
      exact fun _ hd => hd
    · rwa [graphicHead_append htail]

end Lexer

/-- **A separator divides a text.** A text `u`, at least one character that is not printable ASCII,
and a text `v` are taken apart as `u` and then `v`: an error of `u` is found as it is without the
rest, else an error of `v`, as many bytes later as stand before `v`, and else the tokens and the
literals are those of both. -/
theorem tokenize_append_separators {s : String} (hs : s ≠ "")
    (hseparators : ∀ c ∈ s.toList, ¬('!' ≤ c ∧ c ≤ '~')) (u v : String) :
    tokenize (u ++ s ++ v) =
      match tokenize u, tokenize v with
      | .error e, _ => .error e
      | .ok _, .error e =>
        .error { e with offset := e.offset + (u.utf8ByteSize + s.utf8ByteSize) }
      | .ok t, .ok t' => .ok ⟨t.tokens ++ t'.tokens, t.literals ++ t'.literals⟩ := by
  have hskipped : ∀ c ∈ s.toList, Lexer.isGraphic c = false := by
    intro c hc
    rw [Lexer.isGraphic, ← Bool.decide_and]
    exact decide_eq_false (hseparators c hc)
  have htail : Lexer.graphicHead (s.toList ++ v.toList) = none := by
    obtain ⟨c, cs, hcs⟩ := List.exists_cons_of_ne_nil (mt String.toList_eq_nil_iff.1 hs)
    rw [hcs, List.cons_append, Lexer.graphicHead, List.head?_cons,
      Option.filter_some_eq_none]
    simp [hskipped c (hcs ▸ List.mem_cons_self)]
  rw [tokenize, String.toList_append, String.toList_append, List.append_assoc,
    Lexer.scan_append htail, Lexer.scan_separators hskipped, Nat.add_assoc, Lexer.scan_add,
    String.utf8Len_toList, String.utf8Len_toList]
  simp only [tokenize]
  cases Lexer.scan 0 u.toList with
  | error e => rfl
  | ok t => cases Lexer.scan 0 v.toList <;> rfl

/-- Without the separator the sign would be part of the literal, and the operator a call. -/
theorem tokenize_append_separators_accent :
    "é\n" ≠ "" ∧ (∀ c ∈ "é\n".toList, ¬('!' ≤ c ∧ c ≤ '~')) ∧
      tokenize ("a-" ++ "é\n" ++ "1 sin(a)") = .error ⟨.callSyntax, "sin", 7⟩ ∧
      tokenize ("a-sin" ++ "é\n" ++ "(1)") =
        .ok ⟨[.atom (.input 0), .binary .subtract, .unary .sin, .leftParen, .atom .number,
          .rightParen], [1]⟩ := by
  have hs : "é\n" ≠ "" := by decide
  have hseparators : ∀ c ∈ "é\n".toList, ¬('!' ≤ c ∧ c ≤ '~') := by
    rw [show "é\n".toList = ['é', '\n'] from rfl, List.forall_mem_cons, List.forall_mem_singleton]
    decide
  refine ⟨hs, hseparators, ?_, ?_⟩
  · have hu : tokenize "a-" = .ok ⟨[.atom (.input 0), .binary .subtract], []⟩ := by decide +kernel
    have hv : tokenize "1 sin(a)" = .error ⟨.callSyntax, "sin", 2⟩ := by decide +kernel
    rw [tokenize_append_separators hs hseparators, hu, hv]
    rfl
  · have hu : tokenize "a-sin" = .ok ⟨[.atom (.input 0), .binary .subtract, .unary .sin], []⟩ := by
      decide +kernel
    have hv : tokenize "(1)" = .ok ⟨[.leftParen, .atom .number, .rightParen], [1]⟩ := by
      decide +kernel
    rw [tokenize_append_separators hs hseparators, hu, hv]
    rfl

end Bytebeat
