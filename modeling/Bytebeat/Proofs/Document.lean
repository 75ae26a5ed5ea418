import Bytebeat.Proofs.DecimalText
import Bytebeat.Proofs.Quoted
import Bytebeat.Toml.Document
import Mathlib.Logic.Function.Basic

/-!
# Documents read line by line

What the lines of a document do to its table, whatever lines come after them. A
table is seen through its values alone (`State.Shows`), and lines lead from one
view to another (`Leads`).
-/

namespace Bytebeat.Toml

open Decimal (isDigit_of_mem_digits)

/-! ## Values -/

namespace Scalar

theorem head_toDigits {n : Nat} (h : 0 < n) : (Nat.toDigits 10 n).head? ≠ some '0' := by
  induction n using Nat.strongRecOn with
  | ind n ih =>
    rw [Nat.toDigits_eq_if (by decide)]
    split
    · rename_i hlt
      have hall : ∀ k : Fin 10, 0 < k.val → some k.val.digitChar ≠ some '0' := by decide
      exact hall ⟨n, hlt⟩ h
    · rename_i hge
      obtain ⟨d, ds, hds⟩ := List.exists_cons_of_ne_nil (Nat.toDigits_ne_nil (n := n / 10) (b := 10))
      have hhead := ih (n / 10) (by omega) (by omega)
      rw [hds] at hhead ⊢
      exact hhead

theorem not_leading_zero (n : Nat) (c : Char) (cs : List Char) : Nat.toDigits 10 n ≠ '0' :: c :: cs := by
  rcases Nat.eq_zero_or_pos n with rfl | hn
  · simp [Nat.toDigits_zero]
  · exact fun h => head_toDigits hn (by rw [h]; rfl)

theorem rest_of_readField? {width limit n : Nat} {cs rest : List Char}
    (h : readField? width limit cs = some (n, rest)) : rest = cs.drop width := by
  unfold readField? at h
  dsimp only at h
  split at h
  · cases h
    rfl
  · cases h

theorem isMoment_digits {ds : List Char} (h : ∀ c ∈ ds, c.isDigit = true) : isMoment ds = false := by
  have hmark : ∀ c width limit, c.isDigit = false →
      ((readField? width limit ds).bind fun p => dropMark? c p.2) = none := by
    intro c width limit hc
    cases hfield : readField? width limit ds with
    | none => rfl
    | some p =>
      obtain ⟨n, rest⟩ := p
      obtain rfl := rest_of_readField? hfield
      show dropMark? c (ds.drop width) = none
      cases hds : ds.drop width with
      | nil => rfl
      | cons d cs =>
        have hd := h d (List.mem_of_mem_drop (hds ▸ List.mem_cons_self))
        refine if_neg ?_
        rintro rfl
        rw [hc] at hd
        cases hd
  have htime : dropTime? ds = none := by
    have hcolon := hmark ':' 2 24 rfl
    unfold dropTime? dropMinutes?
    cases hfield : readField? 2 24 ds with
    | none => rfl
    | some p =>
      rw [hfield, Option.bind_some] at hcolon
      simp [hcolon]
  have hdate : dropDate? ds = none := by
    have hdash := hmark '-' 4 10000 rfl
    unfold dropDate?
    cases hfield : readField? 4 10000 ds with
    | none => rfl
    | some p =>
      rw [hfield, Option.bind_some] at hdash
      simp [hdash]
  rw [isMoment, htime, hdate]
  rfl

theorem not_mem_digits {ds : List Char} (h : ∀ c ∈ ds, c.isDigit = true) {c : Char}
    (hc : c.isDigit = false) : c ∉ ds := by
  intro hmem
  rw [h c hmem] at hc
  cases hc

theorem dropSign_digits {ds : List Char} (h : ∀ c ∈ ds, c.isDigit = true) : dropSign ds = ds := by
  unfold dropSign
  split
  · exact absurd List.mem_cons_self (not_mem_digits h (by decide : '+'.isDigit = false))
  · exact absurd List.mem_cons_self (not_mem_digits h (by decide : '-'.isDigit = false))
  · rfl

theorem groups?_digits {ds : List Char} (h : ∀ c ∈ ds, c.isDigit = true) (hne : ds ≠ []) :
    groups? Char.isDigit ds = some ds := by
  have hsplit : ds.splitOn '_' = [ds] :=
    List.splitOn_eq_singleton (not_mem_digits h (by decide))
  have hall : ds.all Char.isDigit = true := List.all_eq_true.2 h
  simp [groups?, hsplit, hne, hall]

theorem readInteger?_toDigits {n : Nat} (h : n ≤ Int64.maxValue.toInt) :
    readInteger? (Nat.toDigits 10 n) = some (n : Int) := by
  have hwhole : wholeDigits? (dropSign (Nat.toDigits 10 n)) = some (Nat.toDigits 10 n) := by
    rw [dropSign_digits isDigit_of_mem_digits, wholeDigits?,
      groups?_digits isDigit_of_mem_digits Nat.toDigits_ne_nil]
    split
    · rename_i heq
      exact absurd (Option.some.inj heq) (not_leading_zero n _ _)
    · rfl
  have hsign : (Nat.toDigits 10 n).head? ≠ some '-' := fun hhead =>
    not_mem_digits (c := '-') isDigit_of_mem_digits (by decide) (List.mem_of_mem_head? hhead)
  have hbounded : bounded? n = some (n : Int) := by
    refine if_pos ⟨?_, ?_⟩
    · exact Int.le_trans (by decide) (Int.natCast_nonneg n)
    · exact h
  unfold readInteger?
  split
  · rename_i heq
    exact absurd heq (not_leading_zero n _ _)
  · rename_i heq
    exact absurd heq (not_leading_zero n _ _)
  · rename_i heq
    exact absurd heq (not_leading_zero n _ _)
  · have hvalue : Decimal.ofDigits (Nat.toDigits 10 n) = n := Decimal.ofDigits_padded n 0
    rw [hwhole]
    simp only [Option.bind_some, hsign, if_false, hvalue, hbounded]

theorem isWordChar_of_isDigit {c : Char} (h : c.isDigit = true) : isWordChar c = true := by
  simp [isWordChar, Char.isAlphanum, h]

theorem read?_word {cs : List Char} (h : ∀ c ∈ cs, isWordChar c = true) (rest : List Char) :
    read? (cs ++ '\n' :: rest) = (ofWord? cs).map (·, '\n' :: rest) := by
  have hbreak : isWordChar '\n' = false := by decide
  have htake : (cs ++ '\n' :: rest).takeWhile isWordChar = cs := by
    rw [List.takeWhile_append_of_pos h, List.takeWhile_cons_of_neg (by simp [hbreak]),
      List.append_nil]
  have hdrop : (cs ++ '\n' :: rest).dropWhile isWordChar = '\n' :: rest := by
    rw [List.dropWhile_append_of_pos h, List.dropWhile_cons_of_neg (by simp [hbreak])]
  unfold read?
  simp only [htake, hdrop]
  rw [if_neg]
  simp

theorem ofWord?_toDigits {n : Nat} (h : n ≤ Int64.maxValue.toInt) :
    ofWord? (Nat.toDigits 10 n) = some (.integer n) := by
  have hmem := isDigit_of_mem_digits (n := n)
  have htrue : Nat.toDigits 10 n ≠ ['t', 'r', 'u', 'e'] := by
    intro heq
    rw [heq] at hmem
    exact absurd (hmem 't' List.mem_cons_self) (by decide)
  have hfalse : Nat.toDigits 10 n ≠ ['f', 'a', 'l', 's', 'e'] := by
    intro heq
    rw [heq] at hmem
    exact absurd (hmem 'f' List.mem_cons_self) (by decide)
  rw [ofWord?, if_neg htrue, if_neg hfalse, isMoment_digits isDigit_of_mem_digits,
    if_neg (by decide), readInteger?_toDigits h]

end Scalar

namespace Document

/-- The text `cs` at the end of a line is the value `v`. -/
structure Writes (cs : List Char) (v : Value) : Prop where
  not_blank : ∀ c ∈ cs.head?, isBlank c = false
  readValue?_eq : ∀ rest, readValue? maxDepth (cs ++ '\n' :: rest) = some (v, '\n' :: rest)

theorem writes_word {c : Char} {cs : List Char} {v : Value}
    (hall : (c :: cs).all Scalar.isWordChar = true) (hv : Scalar.ofWord? (c :: cs) = some v) :
    Writes (c :: cs) v := by
  have hword := List.all_eq_true.1 hall
  have hc := hword c List.mem_cons_self
  have hne : ∀ d, Scalar.isWordChar d = false → c ≠ d := by
    rintro d hd rfl
    rw [hc] at hd
    cases hd
  refine ⟨?_, fun rest => ?_⟩
  · rintro d ⟨⟩
    have hspace := hne ' ' (by decide)
    have htab := hne '\t' (by decide)
    simp [isBlank, hspace, htab]
  · rw [List.cons_append, maxDepth, readValue?]
    · rw [readSimple?, ← List.cons_append, Scalar.read?_word hword, hv]
      · rfl
      · exact fun _ heq => hne '"' (by decide) (List.cons.inj heq).1
      · exact fun _ heq => hne '\'' (by decide) (List.cons.inj heq).1
    · exact fun _ heq => hne '[' (by decide) (List.cons.inj heq).1
    · exact fun _ heq => hne '\x7b' (by decide) (List.cons.inj heq).1

theorem writes_toDigits {n : Nat} (h : n ≤ Int64.maxValue.toInt) :
    Writes (Nat.toDigits 10 n) (.integer n) := by
  obtain ⟨c, cs, hcs⟩ := List.exists_cons_of_ne_nil (Nat.toDigits_ne_nil (n := n) (b := 10))
  have hword : (c :: cs).all Scalar.isWordChar = true := List.all_eq_true.2 fun d hd =>
    Scalar.isWordChar_of_isDigit (isDigit_of_mem_digits d (hcs ▸ hd))
  rw [hcs]
  exact writes_word hword (hcs ▸ Scalar.ofWord?_toDigits h)

theorem writes_boolean (b : Bool) :
    Writes (if b then ['t', 'r', 'u', 'e'] else ['f', 'a', 'l', 's', 'e']) (.boolean b) := by
  cases b with
  | true => exact writes_word (by decide) rfl
  | false => exact writes_word (by decide) rfl

theorem writes_nil : Writes ['[', ']'] (.array []) := by
  refine ⟨by rintro c ⟨⟩; decide, fun rest => ?_⟩
  show (readItems? _ (rest.length + 2 + 1) (']' :: '\n' :: rest)).map _ = _
  rw [readItems?, dropGap]
  · rfl
  all_goals exact fun _ heq => by cases heq

theorem write_head (s : List Char) :
    ∃ c cs, Quoted.write s = c :: cs ∧ (c = '"' ∨ c = '\'') := by
  rw [Quoted.write]
  cases Quoted.chooseForm s with
  | basic | basicLines => exact ⟨'"', _, rfl, .inl rfl⟩
  | literal | literalLines => exact ⟨'\'', _, rfl, .inr rfl⟩

theorem writes_string (s : String) : Writes (Quoted.write s.toList) (.string s) := by
  obtain ⟨c, cs, hcs, hc⟩ := write_head s.toList
  have hread : ∀ rest, Quoted.read? (c :: (cs ++ '\n' :: rest)) = some (s.toList, '\n' :: rest) := by
    intro rest
    rw [← List.cons_append, ← hcs, Quoted.read?_write]
    rintro d ⟨⟩
    decide
  rw [hcs]
  refine ⟨?_, fun rest => ?_⟩
  · rintro d ⟨⟩
    rcases hc with rfl | rfl <;> decide
  · have hsimple : readSimple? (c :: (cs ++ '\n' :: rest)) = some (.string s, '\n' :: rest) := by
      rcases hc with rfl | rfl <;> simp only [readSimple?, hread rest, Option.map_some,
        String.ofList_toList]
    rw [List.cons_append, maxDepth, readValue?, hsimple]
    · rintro d heq
      rcases hc with rfl | rfl <;> cases heq
    · rintro d heq
      rcases hc with rfl | rfl <;> cases heq

/-! ## Keys -/

structure IsBare (key : List Char) : Prop where
  ne_nil : key ≠ []
  all_bare : key.all isBareKeyChar = true

theorem dropBlanks_eq {cs : List Char} (h : ∀ c ∈ cs.head?, isBlank c = false) :
    dropBlanks cs = cs := by
  cases cs with
  | nil => rfl
  | cons c cs => exact List.dropWhile_cons_of_neg (by simp [h c rfl])

theorem IsBare.append_ne_cons {key : List Char} (h : IsBare key) {d : Char}
    (hd : isBareKeyChar d = false) (rest tail : List Char) : key ++ rest ≠ d :: tail := by
  obtain ⟨c, cs, rfl⟩ := List.exists_cons_of_ne_nil h.ne_nil
  intro heq
  have hc := List.all_eq_true.1 h.all_bare c List.mem_cons_self
  rw [(List.cons.inj heq).1, hd] at hc
  cases hc

theorem IsBare.not_blank {key : List Char} (h : IsBare key) (rest : List Char) :
    ∀ c ∈ (key ++ rest).head?, isBlank c = false := by
  intro c hc
  obtain ⟨tail, htail⟩ := List.head?_eq_some_iff.1 hc
  have hspace : c ≠ ' ' := fun heq =>
    h.append_ne_cons (by decide : isBareKeyChar ' ' = false) rest tail (heq ▸ htail)
  have htab : c ≠ '\t' := fun heq =>
    h.append_ne_cons (by decide : isBareKeyChar '\t' = false) rest tail (heq ▸ htail)
  simp [isBlank, hspace, htab]

/-- A bare key ends where no part of a key can go on. -/
theorem IsBare.readKey?_eq {key : List Char} (h : IsBare key) {c : Char} {rest : List Char}
    (hc : isBareKeyChar c = false) (hpoint : dropMark? '.' (c :: rest) = none) :
    readKey? maxDepth (key ++ c :: rest) = some ([], String.ofList key, c :: rest) := by
  have hpart : readKeyPart? (key ++ c :: rest) = some (String.ofList key, c :: rest) := by
    have htake : (key ++ c :: rest).takeWhile isBareKeyChar = key := by
      rw [List.takeWhile_append_of_pos (List.all_eq_true.1 h.all_bare),
        List.takeWhile_cons_of_neg (by simp [hc]), List.append_nil]
    have hdrop : (key ++ c :: rest).dropWhile isBareKeyChar = c :: rest := by
      rw [List.dropWhile_append_of_pos (List.all_eq_true.1 h.all_bare),
        List.dropWhile_cons_of_neg (by simp [hc])]
    have hempty : key.isEmpty = false := List.isEmpty_eq_false_iff.2 h.ne_nil
    rw [readKeyPart?]
    · simp only [htake, hdrop, hempty, Bool.false_eq_true, if_false]
    · exact fun tail => h.append_ne_cons (by decide) _ tail
    · exact fun tail => h.append_ne_cons (by decide) _ tail
  rw [maxDepth, readKey?, dropBlanks_eq (h.not_blank _), hpart]
  simp only [hpoint]

/-! ## Lines -/

/-- The line leads from one state to another, whatever lines come after it. -/
structure ReadsLine (s : State) (line : List Char) (s' : State) : Prop where
  not_blank : ∀ c ∈ line.head?, isBlank c = false
  readLine?_eq : ∀ rest, readLine? s (line ++ '\n' :: rest) = some (s', rest)

theorem readsLine_nil (s : State) : ReadsLine s [] s := by
  refine ⟨fun c hc => absurd hc (Option.not_mem_none c), fun rest => ?_⟩
  show readLine? s ('\n' :: rest) = _
  rw [readLine?, dropLineEnd?, dropBlanks_eq (by rintro c ⟨⟩; decide)]
  rfl

theorem dropLineEnd?_break (rest : List Char) : dropLineEnd? ('\n' :: rest) = some rest := rfl

theorem dropBlanks_line {cs : List Char} (h : ∀ c ∈ cs.head?, isBlank c = false) (rest : List Char) :
    dropBlanks (cs ++ '\n' :: rest) = cs ++ '\n' :: rest := by
  refine dropBlanks_eq ?_
  cases cs with
  | nil => rintro c ⟨⟩; decide
  | cons c cs => exact h

theorem readsLine_pair {s : State} {key cs : List Char} {v root : Value} (hkey : IsBare key)
    (hv : Writes cs v)
    (hroot : Value.update? false (·.addPair? [] (String.ofList key) v) s.path s.root = some root) :
    ReadsLine s (key ++ ' ' :: '=' :: ' ' :: cs) { s with root } := by
  refine ⟨hkey.not_blank _, fun rest => ?_⟩
  have hread : readKey? maxDepth (key ++ ' ' :: '=' :: ' ' :: (cs ++ '\n' :: rest)) =
      some ([], String.ofList key, ' ' :: '=' :: ' ' :: (cs ++ '\n' :: rest)) :=
    hkey.readKey?_eq (by decide) rfl
  have hvalue : dropBlanks (' ' :: (cs ++ '\n' :: rest)) = cs ++ '\n' :: rest :=
    dropBlanks_line hv.not_blank rest
  rw [List.append_assoc]
  show readLine? s (key ++ ' ' :: '=' :: ' ' :: (cs ++ '\n' :: rest)) = _
  rw [readLine?]
  · rw [hread]
    have hmark : dropMark? '=' (' ' :: '=' :: ' ' :: (cs ++ '\n' :: rest)) =
      some (' ' :: (cs ++ '\n' :: rest)) := rfl
    simp only [Option.bind_eq_bind, Option.bind_some, hmark, hvalue, hv.readValue?_eq,
      dropLineEnd?_break, hroot]
    rfl
  · exact fun tail => hkey.append_ne_cons (by decide) _ _
  all_goals exact fun tail => hkey.append_ne_cons (by decide) _ tail

theorem readsLine_element {s : State} {key : List Char} {root : Value} (hkey : IsBare key)
    (hroot : Value.openElement? (String.ofList key) s.root = some root) :
    ReadsLine s ('[' :: '[' :: (key ++ [']', ']'])) ⟨root, [String.ofList key]⟩ := by
  refine ⟨by rintro c ⟨⟩; decide, fun rest => ?_⟩
  have hread : readKey? maxDepth (key ++ ']' :: ']' :: '\n' :: rest) =
      some ([], String.ofList key, ']' :: ']' :: '\n' :: rest) := hkey.readKey?_eq (by decide) rfl
  have hmark : dropMark? ']' (']' :: ']' :: '\n' :: rest) = some (']' :: '\n' :: rest) := rfl
  rw [List.cons_append, List.cons_append, List.append_assoc]
  show readLine? s ('[' :: '[' :: (key ++ ']' :: ']' :: '\n' :: rest)) = _
  rw [readLine?, hread]
  simp only [Option.bind_eq_bind, Option.bind_some, hmark, dropLineEnd?_break, Value.update?, hroot]
  rfl

/-! ## Rows of lines -/

inductive ReadsLines : State → List String → State → Prop where
  | nil (s : State) : ReadsLines s [] s
  | cons {s s' s'' : State} {line : String} {lines : List String} :
      ReadsLine s line.toList s' → ReadsLines s' lines s'' → ReadsLines s (line :: lines) s''

theorem ReadsLines.append {s s' s'' : State} {lines lines' : List String}
    (h : ReadsLines s lines s') (h' : ReadsLines s' lines' s'') :
    ReadsLines s (lines ++ lines') s'' := by
  induction h with
  | nil s => exact h'
  | cons hline _ ih => exact .cons hline (ih h')

def joinLines (lines : List String) : String := String.join (lines.map (· ++ "\n"))

theorem toList_joinLines_cons (line : String) (lines : List String) :
    (joinLines (line :: lines)).toList = line.toList ++ '\n' :: (joinLines lines).toList := by
  rw [joinLines, List.map_cons, String.join_cons, String.toList_append, String.toList_append,
    List.append_assoc]
  rfl

/-- A document is read line by line, with a step for each line and one for its end. -/
theorem ReadsLines.readLines? {s s' : State} {lines : List String} (h : ReadsLines s lines s') :
    ∀ fuel, lines.length < fuel →
      readLines? fuel s (joinLines lines).toList = some s'.root := by
  induction h with
  | nil s =>
    intro fuel hfuel
    obtain ⟨fuel, rfl⟩ := Nat.exists_eq_succ_of_ne_zero (Nat.ne_of_gt hfuel)
    rfl
  | @cons s s' s'' line lines hline _ ih =>
    intro fuel hfuel
    obtain ⟨fuel, rfl⟩ := Nat.exists_eq_succ_of_ne_zero (by omega : fuel ≠ 0)
    obtain ⟨c, cs, hcs⟩ : ∃ c cs, line.toList ++ '\n' :: (joinLines lines).toList = c :: cs :=
      List.exists_cons_of_ne_nil (List.append_ne_nil_of_right_ne_nil _ (List.cons_ne_nil _ _))
    have hread := hline.readLine?_eq (joinLines lines).toList
    rw [toList_joinLines_cons, Document.readLines?, dropBlanks_line hline.not_blank, hcs]
    rw [hcs] at hread
    simp only [hread]
    exact ih fuel (by simpa using hfuel)

theorem length_le_joinLines (lines : List String) :
    lines.length ≤ (joinLines lines).toList.length := by
  induction lines with
  | nil => exact Nat.zero_le _
  | cons line lines ih =>
    rw [toList_joinLines_cons, List.length_append, List.length_cons, List.length_cons]
    omega

theorem ReadsLines.read? {lines : List String} {s : State} (h : ReadsLines {} lines s)
    (hmark : (joinLines lines).toList.head? ≠ some '\ufeff') :
    Document.read? (joinLines lines) = some s.root := by
  unfold Document.read?
  extract_lets cs
  have hcs : cs = (joinLines lines).toList := by
    simp only [cs]
    split
    · rename_i heq
      rw [heq] at hmark
      exact absurd rfl hmark
    · rfl
  rw [hcs]
  exact h.readLines? _ (Nat.lt_succ_of_le (length_le_joinLines lines))

end Document

end Bytebeat.Toml
