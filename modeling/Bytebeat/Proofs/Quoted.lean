import Bytebeat.Toml.Quoted

/-!
# Quoted text read back

A string is read as it was written, in each of the four forms and whatever it
holds (`Quoted.read?_write`). A character that is escaped is one that its
escape stands for; a string on several lines may have up to two quotes in front
of its closing quotes, which the reader counts to it.
-/

namespace Bytebeat.Toml.Quoted

/-! ## Escapes -/

/-- The text `e` after a backslash stands for the character `c` and joins no lines. -/
structure Escapes (e : List Char) (c : Char) : Prop where
  readEscape?_eq : ∀ rest, readEscape? (e ++ rest) = some (c, e.length)
  dropJoin?_eq : ∀ rest, dropJoin? (e ++ rest) = none

theorem readCode?_append {width : Nat} {ds : List Char} (h : ds.length = width) (rest : List Char) :
    readCode? width (ds ++ rest) = readCode? width ds := by
  rw [readCode?, readCode?, List.take_left' h, List.take_of_length_le (Nat.le_of_eq h)]

theorem toNat_lt_of_isControl {c : Char} (h : isControl c = true) : c.toNat < 128 := by
  rw [isControl, Bool.or_eq_true, Bool.and_eq_true, Bool.and_eq_true, decide_eq_true_eq,
    beq_iff_eq] at h
  omega

theorem readCode?_fourDigits {c : Char} (h : isControl c = true) :
    readCode? 4 (fourDigits c.toNat) = some c := by
  have hall : ∀ n : Fin 128, readCode? 4 (fourDigits n) = some (Char.ofNat n) := by decide +kernel
  have hc := hall ⟨c.toNat, toNat_lt_of_isControl h⟩
  rwa [Char.ofNat_toNat] at hc

theorem escapes_code {c : Char} (h : isControl c = true) : Escapes ('u' :: fourDigits c.toNat) c where
  readEscape?_eq rest := by
    have hwidth : (fourDigits c.toNat).length = 4 := rfl
    have hread := readCode?_append hwidth rest
    show (readCode? 4 (fourDigits c.toNat ++ rest)).map (·, 5) = _
    rw [hread, readCode?_fourDigits h]
    rfl
  dropJoin?_eq _ := rfl

theorem escapes_quote : Escapes ['"'] '"' := ⟨fun _ => rfl, fun _ => rfl⟩

theorem escape_spec (c : Char) :
    (∃ e, escape c = '\\' :: e ∧ Escapes e c) ∨
      escape c = [c] ∧ isControl c = false ∧ c ≠ '\\' := by
  unfold escape
  split
  · rename_i h
    subst h
    exact .inl ⟨['b'], rfl, fun _ => rfl, fun _ => rfl⟩
  split
  · rename_i h
    subst h
    exact .inl ⟨['t'], rfl, fun _ => rfl, fun _ => rfl⟩
  split
  · rename_i h
    subst h
    exact .inl ⟨['f'], rfl, fun _ => rfl, fun _ => rfl⟩
  split
  · rename_i h
    subst h
    exact .inl ⟨['r'], rfl, fun _ => rfl, fun _ => rfl⟩
  split
  · rename_i h
    subst h
    exact .inl ⟨['\\'], rfl, fun _ => rfl, fun _ => rfl⟩
  rename_i hbackslash
  split
  · rename_i h
    exact .inl ⟨_, rfl, escapes_code h⟩
  · rename_i h
    exact .inr ⟨rfl, by simpa using h, hbackslash⟩

/-! ## Strings on one line -/

theorem readBasic?_escape {e : List Char} {c : Char} (h : Escapes e c) (rest : List Char) :
    readBasic? ('\\' :: (e ++ rest)) = (readBasic? rest).map (prepend [c]) := by
  rw [readBasic?, h.readEscape?_eq]
  simp only [List.drop_left]

theorem readBasic?_plain {c : Char} (hplain : isPlain c = true) (hquote : c ≠ '"')
    (hbackslash : c ≠ '\\') (rest : List Char) :
    readBasic? (c :: rest) = (readBasic? rest).map (prepend [c]) := by
  rw [readBasic?, if_pos hplain]
  · exact hquote
  · exact hbackslash

theorem escapeLine_cons (c : Char) (s : List Char) :
    (∃ e, escapeLine (c :: s) = '\\' :: (e ++ escapeLine s) ∧ Escapes e c) ∨
      escapeLine (c :: s) = c :: escapeLine s ∧ isPlain c = true ∧ c ≠ '"' ∧ c ≠ '\\' := by
  have hcons : escapeLine (c :: s) = (if c = '\n' then ['\\', 'n'] else
      if c = '"' then ['\\', '"'] else escape c) ++ escapeLine s := List.flatMap_cons
  rw [hcons]
  by_cases hbreak : c = '\n'
  · subst hbreak
    exact .inl ⟨['n'], rfl, fun _ => rfl, fun _ => rfl⟩
  by_cases hquote : c = '"'
  · subst hquote
    exact .inl ⟨['"'], rfl, escapes_quote⟩
  rw [if_neg hbreak, if_neg hquote]
  rcases escape_spec c with ⟨e, hescape, he⟩ | ⟨hescape, hcontrol, hbackslash⟩
  · exact .inl ⟨e, by rw [hescape, List.cons_append], he⟩
  · have hplain : isPlain c = true := by simp [isPlain, hcontrol, hbreak]
    exact .inr ⟨by rw [hescape, List.singleton_append], hplain, hquote, hbackslash⟩

theorem readBasic?_escapeLine (s rest : List Char) :
    readBasic? (escapeLine s ++ '"' :: rest) = some (s, rest) := by
  induction s with
  | nil => rw [escapeLine, List.flatMap_nil, List.nil_append, readBasic?]
  | cons c s ih =>
    rcases escapeLine_cons c s with ⟨e, hescape, he⟩ | ⟨hescape, hplain, hquote, hbackslash⟩
    · rw [hescape, List.cons_append, List.append_assoc, readBasic?_escape he, ih]
      rfl
    · rw [hescape, List.cons_append, readBasic?_plain hplain hquote hbackslash, ih]
      rfl

theorem readLiteral?_append {s : List Char} (h : ∀ c ∈ s, isPlain c = true ∧ c ≠ '\'')
    (rest : List Char) : readLiteral? (s ++ '\'' :: rest) = some (s, rest) := by
  induction s with
  | nil => rfl
  | cons c s ih =>
    obtain ⟨hplain, hquote⟩ := h c List.mem_cons_self
    rw [List.cons_append, readLiteral?, if_pos hplain,
      ih fun d hd => h d (List.mem_cons_of_mem c hd)]
    · rfl
    · exact hquote

/-! ## Strings on several lines -/

theorem readLastQuotes_replicate {quote : Char} {k : Nat} (hk : k ≤ 2) {rest : List Char}
    (hrest : ∀ c ∈ rest.head?, c ≠ quote) :
    readLastQuotes quote (List.replicate k quote ++ rest) = (List.replicate k quote, rest) := by
  match k, hk with
  | 0, _ =>
    match rest with
    | [] => rfl
    | [c] => exact if_neg (hrest c rfl)
    | c :: d :: rest => exact if_neg (hrest c rfl)
  | 1, _ =>
    match rest with
    | [] => exact if_pos rfl
    | c :: rest => exact (if_pos rfl).trans (if_neg (hrest c rfl))
  | 2, _ => exact (if_pos rfl).trans (if_pos rfl)

theorem readBasicLines?_escape {e : List Char} {c : Char} (h : Escapes e c) (rest : List Char) :
    readBasicLines? ('\\' :: (e ++ rest)) = (readBasicLines? rest).map (prepend [c]) := by
  rw [readBasicLines?]
  split
  · rename_i hjoin
    rw [h.dropJoin?_eq] at hjoin
    cases hjoin
  · rw [h.readEscape?_eq]
    simp only [List.drop_left]

theorem readBasicLines?_plain {c : Char} (hcontrol : isControl c = false) (hbackslash : c ≠ '\\')
    {rest : List Char} (hquotes : c = '"' → ∀ r, rest ≠ '"' :: '"' :: r) :
    readBasicLines? (c :: rest) = (readBasicLines? rest).map (prepend [c]) := by
  rw [readBasicLines?, if_neg (by simp [hcontrol])]
  · exact fun r hc => hquotes hc r
  · exact hbackslash
  · rintro r rfl
    cases hcontrol

theorem readLiteralLines?_plain {c : Char} (hcontrol : isControl c = false)
    {rest : List Char} (hquotes : c = '\'' → ∀ r, rest ≠ '\'' :: '\'' :: r) :
    readLiteralLines? (c :: rest) = (readLiteralLines? rest).map (prepend [c]) := by
  rw [readLiteralLines?, if_neg (by simp [hcontrol])]
  · exact fun r hc => hquotes hc r
  · rintro r rfl
    cases hcontrol

theorem map_prepend_map (s t : List Char) (r : Option (List Char × List Char)) :
    (r.map (prepend t)).map (prepend s) = r.map (prepend (s ++ t)) := by
  cases r with
  | none => rfl
  | some r => simp only [Option.map_some, prepend, List.append_assoc]

/-- How both readers of strings on several lines take quotes. -/
structure TakesQuotes (quote : Char) (read : List Char → Option (List Char × List Char)) : Prop where
  close : ∀ rest, read (quote :: quote :: quote :: rest) = some (readLastQuotes quote rest)
  content : ∀ rest, (∀ r, rest ≠ quote :: quote :: r) →
    read (quote :: rest) = (read rest).map (prepend [quote])

theorem takesQuotes_readBasicLines? : TakesQuotes '"' readBasicLines? where
  close rest := by rw [readBasicLines?]
  content _ hrest := readBasicLines?_plain (by decide) (by decide) fun _ => hrest

theorem takesQuotes_readLiteralLines? : TakesQuotes '\'' readLiteralLines? where
  close _ := rfl
  content _ hrest := readLiteralLines?_plain (by decide) fun _ => hrest

namespace TakesQuotes

variable {quote : Char} {read : List Char → Option (List Char × List Char)}

/-- Up to two quotes with no quote after them are content. -/
theorem replicate (h : TakesQuotes quote read) {k : Nat} (hk : k ≤ 2) {rest : List Char}
    (hrest : ∀ c ∈ rest.head?, c ≠ quote) :
    read (List.replicate k quote ++ rest) =
      (read rest).map (prepend (List.replicate k quote)) := by
  have hone : read (quote :: rest) = (read rest).map (prepend [quote]) := by
    refine h.content rest fun r hr => ?_
    rw [hr] at hrest
    exact hrest quote rfl rfl
  match k, hk with
  | 0, _ => cases hread : read rest <;> simp [hread, prepend]
  | 1, _ => exact hone
  | 2, _ =>
    have htwo : read (quote :: quote :: rest) = (read (quote :: rest)).map (prepend [quote]) := by
      refine h.content (quote :: rest) fun r hr => ?_
      rw [(List.cons.inj hr).2] at hrest
      exact hrest quote rfl rfl
    exact htwo.trans (by rw [hone, map_prepend_map]; rfl)

theorem replicate_close (h : TakesQuotes quote read) {k : Nat} (hk : k ≤ 2) {rest : List Char}
    (hrest : ∀ c ∈ rest.head?, c ≠ quote) :
    read (List.replicate k quote ++ quote :: quote :: quote :: rest) =
      some (List.replicate k quote, rest) := by
  have hswap : List.replicate k quote ++ quote :: quote :: quote :: rest =
      quote :: quote :: quote :: (List.replicate k quote ++ rest) := by
    match k, hk with
    | 0, _ | 1, _ | 2, _ => rfl
  rw [hswap, h.close, readLastQuotes_replicate hk hrest]

end TakesQuotes

theorem escape_head (c : Char) (rest : List Char) :
    ∀ d ∈ (escape c ++ rest).head?, d = '\\' ∨ d = c ∧ isControl c = false := by
  rcases escape_spec c with ⟨e, hescape, -⟩ | ⟨hescape, hcontrol, -⟩
  · rw [hescape]
    rintro d ⟨⟩
    exact .inl rfl
  · rw [hescape]
    rintro d ⟨⟩
    exact .inr ⟨rfl, hcontrol⟩

theorem escape_head_ne {c : Char} (h : c ≠ '"') (rest : List Char) :
    ∀ d ∈ (escape c ++ rest).head?, d ≠ '"' := by
  intro d hd
  rcases escape_head c rest d hd with rfl | ⟨rfl, -⟩
  · decide
  · exact h

theorem readBasicLines?_escape_append (c : Char) (hquote : c ≠ '"') (rest : List Char) :
    readBasicLines? (escape c ++ rest) = (readBasicLines? rest).map (prepend [c]) := by
  rcases escape_spec c with ⟨e, hescape, he⟩ | ⟨hescape, hcontrol, hbackslash⟩
  · rw [hescape]
    exact readBasicLines?_escape he rest
  · rw [hescape]
    exact readBasicLines?_plain hcontrol hbackslash fun h => absurd h hquote

/-- A basic string on several lines is read as it was escaped, with the quotes that were written
before it but have not been read yet. -/
theorem readBasicLines?_escapeLines (s : List Char) {rest : List Char}
    (hrest : ∀ c ∈ rest.head?, c ≠ '"') :
    ∀ quotes ≤ 2, readBasicLines? (List.replicate quotes '"' ++
        (escapeLines quotes s ++ '"' :: '"' :: '"' :: rest)) =
      some (List.replicate quotes '"' ++ s, rest) := by
  induction s with
  | nil =>
    intro quotes hle
    rw [escapeLines, List.nil_append, List.append_nil]
    exact takesQuotes_readBasicLines?.replicate_close hle hrest
  | cons c s ih =>
    intro quotes hle
    have hrestart : readBasicLines? (escapeLines 0 s ++ '"' :: '"' :: '"' :: rest) = some (s, rest) :=
      ih 0 (by decide)
    by_cases hquote : c = '"'
    · subst hquote
      -- A third quote in a row is escaped; one of the first two waits for what comes after it.
      by_cases htwo : quotes = 2
      · subst htwo
        have hread := readBasicLines?_escape escapes_quote (escapeLines 0 s ++ '"' :: '"' :: '"' :: rest)
        rw [hrestart] at hread
        rw [escapeLines, if_pos rfl, if_pos rfl,
          takesQuotes_readBasicLines?.replicate hle (by rintro d ⟨⟩; decide)]
        exact congrArg (Option.map _) hread
      · have hmove : List.replicate quotes '"' ++
            ('"' :: escapeLines (quotes + 1) s ++ '"' :: '"' :: '"' :: rest) =
            List.replicate (quotes + 1) '"' ++
              (escapeLines (quotes + 1) s ++ '"' :: '"' :: '"' :: rest) := by
          rw [List.replicate_succ']
          simp
        rw [escapeLines, if_pos rfl, if_neg htwo, hmove, ih (quotes + 1) (by omega),
          List.replicate_succ']
        simp
    · rw [escapeLines, if_neg hquote, List.append_assoc,
        takesQuotes_readBasicLines?.replicate hle (escape_head_ne hquote _),
        readBasicLines?_escape_append c hquote, hrestart]
      rfl

theorem hasTriple_of_cons {c x : Char} {s : List Char} (h : hasTriple c (x :: s) = false) :
    hasTriple c s = false := by
  match s with
  | [] | [_] => rfl
  | y :: z :: s => exact (Bool.or_eq_false_iff.1 h).2

theorem hasTriple_of_append {c : Char} (s : List Char) {t : List Char}
    (h : hasTriple c (s ++ t) = false) : hasTriple c t = false := by
  induction s with
  | nil => exact h
  | cons x s ih => exact ih (hasTriple_of_cons h)

theorem readLiteralLines?_append {s : List Char} (hs : ∀ c ∈ s, isControl c = false)
    {rest : List Char} (hrest : ∀ c ∈ rest.head?, c ≠ '\'') :
    ∀ quotes ≤ 2, hasTriple '\'' (List.replicate quotes '\'' ++ s) = false →
      readLiteralLines? (List.replicate quotes '\'' ++ (s ++ '\'' :: '\'' :: '\'' :: rest)) =
        some (List.replicate quotes '\'' ++ s, rest) := by
  induction s with
  | nil =>
    intro quotes hle _
    rw [List.nil_append, List.append_nil]
    exact takesQuotes_readLiteralLines?.replicate_close hle hrest
  | cons c s ih =>
    intro quotes hle htriple
    have hrest := ih fun d hd => hs d (List.mem_cons_of_mem c hd)
    by_cases hquote : c = '\''
    · subst hquote
      have htwo : quotes ≠ 2 := by
        rintro rfl
        match s with
        | [] | _ :: _ => cases htriple
      have hmove : ∀ t : List Char, List.replicate quotes '\'' ++ '\'' :: t =
          List.replicate (quotes + 1) '\'' ++ t := fun t => by
        rw [List.replicate_succ']
        simp
      rw [hmove] at htriple ⊢
      rw [List.cons_append, hmove]
      exact hrest (quotes + 1) (by omega) htriple
    · have hread : readLiteralLines? (s ++ '\'' :: '\'' :: '\'' :: rest) = some (s, rest) :=
        hrest 0 (by decide) (hasTriple_of_cons (hasTriple_of_append _ htriple))
      rw [List.cons_append,
        takesQuotes_readLiteralLines?.replicate hle (by rintro d ⟨⟩; exact hquote),
        readLiteralLines?_plain (hs c List.mem_cons_self) fun h => absurd h hquote, hread]
      rfl

/-! ## Every form -/

theorem escapeLine_head (c : Char) (s rest : List Char) :
    ∀ d ∈ (escapeLine (c :: s) ++ rest).head?, d ≠ '"' := by
  rcases escapeLine_cons c s with ⟨e, hescape, -⟩ | ⟨hescape, -, hquote, -⟩
  · rw [hescape]
    rintro d ⟨⟩
    decide
  · rw [hescape]
    rintro d ⟨⟩
    exact hquote

theorem read?_basic (s : List Char) {rest : List Char} (hrest : ∀ c ∈ rest.head?, c ≠ '"') :
    read? (writeAs .basic s ++ rest) = some (s, rest) := by
  have hone : ∀ r, escapeLine s ++ '"' :: rest ≠ '"' :: '"' :: r := by
    intro r hr
    cases s with
    | nil => exact hrest '"' (by rw [(List.cons.inj hr).2]; rfl) rfl
    | cons c s => exact escapeLine_head c s ('"' :: rest) '"' (by rw [hr]; rfl) rfl
  show read? ('"' :: (escapeLine s ++ ['"'] ++ rest)) = _
  rw [List.append_assoc, List.singleton_append, read?, readBasic?_escapeLine]
  exact hone

theorem read?_literal {s : List Char} (hs : ∀ c ∈ s, isPlain c = true ∧ c ≠ '\'')
    {rest : List Char} (hrest : ∀ c ∈ rest.head?, c ≠ '\'') :
    read? (writeAs .literal s ++ rest) = some (s, rest) := by
  have hone : ∀ r, s ++ '\'' :: rest ≠ '\'' :: '\'' :: r := by
    intro r hr
    cases s with
    | nil => exact hrest '\'' (by rw [(List.cons.inj hr).2]; rfl) rfl
    | cons c s => exact (hs c List.mem_cons_self).2 (List.cons.inj hr).1
  show read? ('\'' :: (s ++ ['\''] ++ rest)) = _
  rw [List.append_assoc, List.singleton_append, read?, readLiteral?_append hs]
  exact hone

theorem dropFirstBreak_start (lines : Bool) {cs : List Char}
    (h : lines = false → ∀ c ∈ cs.head?, c ≠ '\n' ∧ c ≠ '\x0d') :
    dropFirstBreak ((if lines then ['\n'] else []) ++ cs) = cs := by
  cases lines with
  | true => rfl
  | false =>
    have hhead := h rfl
    rw [if_neg (by decide), List.nil_append]
    match cs with
    | [] => rfl
    | c :: cs =>
      obtain ⟨hbreak, hreturn⟩ := hhead c rfl
      have hnone : dropLineBreak? (c :: cs) = none := by
        unfold dropLineBreak?
        split
        · rename_i heq
          exact absurd (List.cons.inj heq).1 hbreak
        · rename_i heq
          exact absurd (List.cons.inj heq).1 hreturn
        · rfl
      rw [dropFirstBreak, hnone]
      rfl

theorem not_return_of_isControl {c : Char} (h : isControl c = false) : c ≠ '\x0d' := by
  rintro rfl
  cases h

theorem read?_basicLines (s : List Char) {rest : List Char} (hrest : ∀ c ∈ rest.head?, c ≠ '"') :
    read? (writeAs .basicLines s ++ rest) = some (s, rest) := by
  have hstart : s.contains '\n' = false →
      ∀ c ∈ (escapeLines 0 s ++ '"' :: '"' :: '"' :: rest).head?, c ≠ '\n' ∧ c ≠ '\x0d' := by
    intro hlines d hd
    cases s with
    | nil => cases hd; decide
    | cons c s =>
      rw [escapeLines] at hd
      split at hd
      · cases hd; decide
      · rw [List.append_assoc] at hd
        rcases escape_head c _ d hd with rfl | ⟨rfl, hcontrol⟩
        · decide
        · refine ⟨?_, not_return_of_isControl hcontrol⟩
          rintro rfl
          simp at hlines
  show read? ('"' :: '"' :: '"' :: ((if s.contains '\n' then ['\n'] else []) ++ escapeLines 0 s ++
    ['"', '"', '"'] ++ rest)) = _
  rw [List.append_assoc, List.append_assoc, read?]
  exact (congrArg readBasicLines? (dropFirstBreak_start _ hstart)).trans
    (readBasicLines?_escapeLines s hrest 0 (by decide))

theorem read?_literalLines {s : List Char} (hs : ∀ c ∈ s, isControl c = false)
    (htriple : hasTriple '\'' s = false) {rest : List Char} (hrest : ∀ c ∈ rest.head?, c ≠ '\'') :
    read? (writeAs .literalLines s ++ rest) = some (s, rest) := by
  have hstart : s.contains '\n' = false →
      ∀ c ∈ (s ++ '\'' :: '\'' :: '\'' :: rest).head?, c ≠ '\n' ∧ c ≠ '\x0d' := by
    intro hlines d hd
    cases s with
    | nil => cases hd; decide
    | cons c s =>
      obtain rfl : c = d := Option.some.inj hd
      refine ⟨?_, not_return_of_isControl (hs c List.mem_cons_self)⟩
      rintro rfl
      simp at hlines
  show read? ('\'' :: '\'' :: '\'' :: ((if s.contains '\n' then ['\n'] else []) ++ s ++
    ['\'', '\'', '\''] ++ rest)) = _
  rw [List.append_assoc, List.append_assoc, read?]
  exact (congrArg readLiteralLines? (dropFirstBreak_start _ hstart)).trans
    (readLiteralLines?_append hs hrest 0 (by decide) htriple)

/-- **A string is read as it was written**, if no quote follows it. -/
theorem read?_write (s : List Char) {rest : List Char}
    (hrest : ∀ c ∈ rest.head?, c ≠ '"' ∧ c ≠ '\'') : read? (write s ++ rest) = some (s, rest) := by
  have hdouble : ∀ c ∈ rest.head?, c ≠ '"' := fun c hc => (hrest c hc).1
  have hsingle : ∀ c ∈ rest.head?, c ≠ '\'' := fun c hc => (hrest c hc).2
  have hplain : (!s.any isControl) = true → ∀ c ∈ s, isControl c = false := by
    intro h c hc
    rw [Bool.not_eq_true', List.any_eq_false] at h
    simpa using h c hc
  rw [write, chooseForm]
  split
  · exact read?_basic s hdouble
  split
  · rename_i h
    simp only [Bool.and_eq_true] at h
    obtain ⟨⟨hcontrol, hquote⟩, hlines⟩ := h
    refine read?_literal (fun c hc => ⟨?_, ?_⟩) hsingle
    · have hbreak : c ≠ '\n' := by
        rintro rfl
        simp [hc] at hlines
      simp [isPlain, hplain hcontrol c hc, hbreak]
    · rintro rfl
      simp [hc] at hquote
  split
  · exact read?_basicLines s hdouble
  split
  · rename_i h
    obtain ⟨hcontrol, htriple⟩ := Bool.and_eq_true_iff.1 h
    exact read?_literalLines (hplain hcontrol) (by simpa using htriple) hsingle
  split
  · exact read?_basicLines s hdouble
  · exact read?_basic s hdouble

end Bytebeat.Toml.Quoted
