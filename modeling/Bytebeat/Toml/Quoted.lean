/-!
# Quoted text

The four forms of a TOML string: basic strings, which have escapes, and
literal strings, which have none, each on one line or on several. Readers take
the text after the opening quotes and answer with the content and the text
after the closing quotes. `write` chooses the form that needs no escapes, if
there is one.
-/

namespace Bytebeat.Toml.Quoted

/-- Control characters other than the tab and the line feed. -/
def isControl (c : Char) : Bool :=
  (c.toNat < 0x20 && c != '\t' && c != '\n') || c.toNat == 0x7f

/-- Characters that a string on one line can hold as they are. -/
def isPlain (c : Char) : Bool := !isControl c && c != '\n'

def isHexDigit (c : Char) : Bool :=
  c.isDigit || ('a' ≤ c && c ≤ 'f') || ('A' ≤ c && c ≤ 'F')

def hexValue (c : Char) : Nat :=
  if c.isDigit then c.toNat - '0'.toNat else c.toLower.toNat - 'a'.toNat + 10

/-- The character whose code the first `width` hexadecimal digits give. -/
def readCode? (width : Nat) (cs : List Char) : Option Char :=
  let digits := cs.take width
  let code := digits.foldl (fun n c => 16 * n + hexValue c) 0
  if digits.length = width ∧ digits.all isHexDigit ∧ code.isValidChar then
    some (Char.ofNat code)
  else none

/-- The character that an escape stands for, from the text after the backslash, and the length
of that text. -/
def readEscape? : List Char → Option (Char × Nat)
  | 'b' :: _ => some ('\x08', 1)
  | 't' :: _ => some ('\t', 1)
  | 'n' :: _ => some ('\n', 1)
  | 'f' :: _ => some ('\x0c', 1)
  | 'r' :: _ => some ('\r', 1)
  | '"' :: _ => some ('"', 1)
  | '\\' :: _ => some ('\\', 1)
  | 'u' :: cs => (readCode? 4 cs).map (·, 5)
  | 'U' :: cs => (readCode? 8 cs).map (·, 9)
  | _ => none

def prepend (s : List Char) (r : List Char × List Char) : List Char × List Char := (s ++ r.1, r.2)

def readBasic? (cs : List Char) : Option (List Char × List Char) :=
  match cs with
  | [] => none
  | '"' :: rest => some ([], rest)
  | '\\' :: rest =>
    match readEscape? rest with
    | some (c, length) => (readBasic? (rest.drop length)).map (prepend [c])
    | none => none
  | c :: rest => if isPlain c then (readBasic? rest).map (prepend [c]) else none
termination_by cs.length
decreasing_by all_goals simp only [List.length_drop, List.length_cons]; omega

def readLiteral? : List Char → Option (List Char × List Char)
  | [] => none
  | '\'' :: rest => some ([], rest)
  | c :: rest => if isPlain c then (readLiteral? rest).map (prepend [c]) else none

def dropLineBreak? : List Char → Option (List Char)
  | '\n' :: rest => some rest
  | '\r' :: '\n' :: rest => some rest
  | _ => none

def dropBlankLines : List Char → List Char
  | ' ' :: rest => dropBlankLines rest
  | '\t' :: rest => dropBlankLines rest
  | '\n' :: rest => dropBlankLines rest
  | '\r' :: '\n' :: rest => dropBlankLines rest
  | cs => cs

theorem dropBlankLines_length (cs : List Char) : (dropBlankLines cs).length ≤ cs.length := by
  fun_induction dropBlankLines cs <;> simp_all <;> omega

/-- The text after a backslash that joins lines: blanks, a line break and all blank space after
it. -/
def dropJoin? (cs : List Char) : Option (List Char) :=
  match cs with
  | ' ' :: rest => dropJoin? rest
  | '\t' :: rest => dropJoin? rest
  | '\n' :: rest => some (dropBlankLines rest)
  | '\r' :: '\n' :: rest => some (dropBlankLines rest)
  | _ => none

theorem dropJoin?_length {cs rest : List Char} (h : dropJoin? cs = some rest) :
    rest.length ≤ cs.length := by
  fun_induction dropJoin? cs with
  | case1 _ ih => have := ih h; simp only [List.length_cons]; omega
  | case2 _ ih => have := ih h; simp only [List.length_cons]; omega
  | case3 r => cases h; have := dropBlankLines_length r; simp only [List.length_cons]; omega
  | case4 r => cases h; have := dropBlankLines_length r; simp only [List.length_cons]; omega
  | case5 => cases h

/-- The end of a string on several lines, after three closing quotes: up to two more of them are
its last characters. -/
def readLastQuotes (quote : Char) : List Char → List Char × List Char
  | c :: d :: rest =>
    if c = quote then if d = quote then ([c, d], rest) else ([c], d :: rest)
    else ([], c :: d :: rest)
  | [c] => if c = quote then ([c], []) else ([], [c])
  | [] => ([], [])

def readBasicLines? (cs : List Char) : Option (List Char × List Char) :=
  match cs with
  | [] => none
  | '"' :: '"' :: '"' :: rest => some (readLastQuotes '"' rest)
  | '\\' :: rest =>
    match _h : dropJoin? rest with
    | some rest' => readBasicLines? rest'
    | none =>
      match readEscape? rest with
      | some (c, length) => (readBasicLines? (rest.drop length)).map (prepend [c])
      | none => none
  | '\r' :: '\n' :: rest => (readBasicLines? rest).map (prepend ['\n'])
  | c :: rest => if isControl c then none else (readBasicLines? rest).map (prepend [c])
termination_by cs.length
decreasing_by
  · have := dropJoin?_length _h; simp only [List.length_cons]; omega
  all_goals simp only [List.length_drop, List.length_cons]; omega

def readLiteralLines? : List Char → Option (List Char × List Char)
  | [] => none
  | '\'' :: '\'' :: '\'' :: rest => some (readLastQuotes '\'' rest)
  | '\r' :: '\n' :: rest => (readLiteralLines? rest).map (prepend ['\n'])
  | c :: rest => if isControl c then none else (readLiteralLines? rest).map (prepend [c])

/-- Drops one line break, as after the opening quotes of a string on several lines. -/
def dropFirstBreak (cs : List Char) : List Char := (dropLineBreak? cs).getD cs

def read? : List Char → Option (List Char × List Char)
  | '"' :: '"' :: '"' :: rest => readBasicLines? (dropFirstBreak rest)
  | '"' :: rest => readBasic? rest
  | '\'' :: '\'' :: '\'' :: rest => readLiteralLines? (dropFirstBreak rest)
  | '\'' :: rest => readLiteral? rest
  | _ => none

/-! ## Writing -/

def fourDigits (n : Nat) : List Char :=
  [12, 8, 4, 0].map fun shift => (Nat.digitChar (n >>> shift % 16)).toUpper

/-- A character as it is escaped in basic strings; quotes and line feeds are left. -/
def escape (c : Char) : List Char :=
  if c = '\x08' then ['\\', 'b']
  else if c = '\t' then ['\\', 't']
  else if c = '\x0c' then ['\\', 'f']
  else if c = '\r' then ['\\', 'r']
  else if c = '\\' then ['\\', '\\']
  else if isControl c then '\\' :: 'u' :: fourDigits c.toNat
  else [c]

/-- The content of a basic string on one line. -/
def escapeLine (s : List Char) : List Char :=
  s.flatMap fun c =>
    if c = '\n' then ['\\', 'n'] else if c = '"' then ['\\', '"'] else escape c

/-- The content of a basic string on several lines, after `quotes` quotes in a row: of three
quotes in a row the third is escaped. -/
def escapeLines : (quotes : Nat) → List Char → List Char
  | _, [] => []
  | quotes, c :: cs =>
    if c = '"' then
      if quotes = 2 then '\\' :: '"' :: escapeLines 0 cs else '"' :: escapeLines (quotes + 1) cs
    else escape c ++ escapeLines 0 cs

/-- Whether three characters `c` follow one another. -/
def hasTriple (c : Char) : List Char → Bool
  | x :: y :: z :: cs => (x == c && y == c && z == c) || hasTriple c (y :: z :: cs)
  | _ => false

inductive Form where
  | basic
  | literal
  | basicLines
  | literalLines
  deriving DecidableEq, Repr

/-- The form a string is written in: the first that holds it without escapes, else a basic
string, on several lines if it has several. -/
def chooseForm (s : List Char) : Form :=
  let plain := !s.any isControl
  let lines := s.contains '\n'
  if plain && !s.contains '\\' && !s.contains '"' && !lines then .basic
  else if plain && !s.contains '\'' && !lines then .literal
  else if plain && !s.contains '\\' && !hasTriple '"' s then .basicLines
  else if plain && !hasTriple '\'' s then .literalLines
  else if lines then .basicLines
  else .basic

/-- A string in a given form. The content of a string of several lines starts on a line of its
own. -/
def writeAs (form : Form) (s : List Char) : List Char :=
  let start := if s.contains '\n' then ['\n'] else []
  match form with
  | .basic => '"' :: escapeLine s ++ ['"']
  | .literal => '\'' :: s ++ ['\'']
  | .basicLines => ['"', '"', '"'] ++ start ++ escapeLines 0 s ++ ['"', '"', '"']
  | .literalLines => ['\'', '\'', '\''] ++ start ++ s ++ ['\'', '\'', '\'']

def write (s : List Char) : List Char := writeAs (chooseForm s) s

end Bytebeat.Toml.Quoted
