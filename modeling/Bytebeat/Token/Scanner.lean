import Bytebeat.Token.Lexer

/-!
# The scanner

The lexer byte by byte. One loop goes over the bytes of a text and keeps the
place it has come to, the place where the lexeme that it is in begins and how
that lexeme began. It looks at one byte a turn, and some turns take in none.
What a lexeme says is read by cutting it out of the text, for which both ends
have to lie between two characters: a cut elsewhere stops everything.
-/

namespace Bytebeat

/-- A stretch of a text, from one byte up to another. -/
structure Span where
  start : Nat
  stop : Nat
  deriving DecidableEq, Repr

/-- The stretch ends after it starts, and both ends are at the text's ends or between two of its
characters. -/
structure Span.Fits (text : String) (s : Span) : Prop where
  ordered : s.start ≤ s.stop
  start_isValid : String.Pos.Raw.IsValid text ⟨s.start⟩
  stop_isValid : String.Pos.Raw.IsValid text ⟨s.stop⟩

instance (text : String) (s : Span) : Decidable (s.Fits text) :=
  decidable_of_iff (s.start ≤ s.stop ∧ String.Pos.Raw.IsValid text ⟨s.start⟩ ∧
      String.Pos.Raw.IsValid text ⟨s.stop⟩)
    ⟨fun ⟨h, h₁, h₂⟩ => ⟨h, h₁, h₂⟩, fun ⟨h, h₁, h₂⟩ => ⟨h, h₁, h₂⟩⟩

/-- The text of a stretch, if it fits. -/
def Span.cut? (text : String) (s : Span) : Option String :=
  if h : s.Fits text then
    some (String.extract ⟨⟨s.start⟩, h.start_isValid⟩ ⟨⟨s.stop⟩, h.stop_isValid⟩)
  else none

/-- What is done with a text by cutting stretches out of it: the stretches asked for, in their
order, and what it comes to, unless the last of them does not fit. -/
structure Cutting (α : Type) where
  cuts : List Span
  answer : Option α

namespace Cutting

instance : Monad Cutting where
  pure a := ⟨[], some a⟩
  bind x f :=
    match x.answer with
    | none => ⟨x.cuts, none⟩
    | some a => ⟨x.cuts ++ (f a).cuts, (f a).answer⟩

def cut (text : String) (s : Span) : Cutting String := ⟨[s], s.cut? text⟩

end Cutting

/-- The byte at a place, as the character with its number. A byte below 128 is an ASCII character of
the text; all others are parts of other characters. -/
def byteAt? (text : String) (n : Nat) : Option Char := text.toUTF8.data[n]?.map Char.ofUInt8

/-- Whole characters from the front, as many as there is room for in bytes. -/
def LexError.clip (room : Nat) : List Char → List Char
  | [] => []
  | c :: cs => if c.utf8Size ≤ room then c :: clip (room - c.utf8Size) cs else []

inductive ScanState where
  /-- Nothing: a lexeme may begin. -/
  | gap
  /-- A minus sign, which may belong to a literal. -/
  | minus
  | number
  | word
  | symbol
  deriving DecidableEq, Repr

/-- What a byte read in a gap leads to. -/
def ScanState.opened (c : Char) : ScanState :=
  if c == '-' then .minus
  else if Lexer.startsNumber c then .number
  else if c.isAlpha then .word
  else if Lexer.isGraphic c then .symbol
  else .gap

/-- The scanner between two turns of its loop. -/
structure Scanner where
  state : ScanState := .gap
  /-- Where the lexeme begins that it is in. -/
  start : Nat := 0
  /-- Where the next byte is. -/
  pos : Nat := 0
  /-- The tokens and literals of the lexemes before. -/
  out : TokenText := {}
  deriving DecidableEq, Repr

namespace Scanner

/-- What a turn of the loop comes to. -/
inductive Turn where
  | next (s : Scanner)
  | stop (result : Except LexError TokenText)

/-- The stretch from where the lexeme begins up to the next byte. -/
def span (s : Scanner) : Span := ⟨s.start, s.pos⟩

def takeIn (state : ScanState) (s : Scanner) : Scanner := { s with state, pos := s.pos + 1 }

/-- Adds a token, with its value if it is a literal; its lexeme ends at the next byte. -/
def emit (t : Token) (value : Option Float) (s : Scanner) : Scanner :=
  { s with
    state := .gap
    out := ⟨s.out.tokens ++ [t], s.out.literals ++ value.toList⟩ }

/-- The turn in which a lexeme is found to be at its end, `next` being the byte after it. -/
def close (text : String) (shape : LexemeShape) (next : Option Char) (s : Scanner) :
    Cutting Turn := do
  let spelling ← Cutting.cut text s.span
  match Lexer.classify ⟨shape, spelling.toList⟩ next.toList with
  | .ok (t, value) => return .next (s.emit t value)
  | .error fault =>
    let clipped := LexError.clip LexError.spellingLimit spelling.toList
    return .stop (.error ⟨fault, String.ofList clipped, s.start⟩)

/-- The turn after the first character of a symbol: the one after it belongs to it if both together
are a token. -/
def closeSymbol (text : String) (next : Option Char) (s : Scanner) : Cutting Turn :=
  if next.any Lexer.isGraphic then do
    let pair ← Cutting.cut text ⟨s.start, s.pos + 1⟩
    match Token.ofSpelling? pair with
    | some t => return .next ((s.takeIn .symbol).emit t none)
    | none => s.close text .symbol next
  else s.close text .symbol next

def turn (text : String) (s : Scanner) : Cutting Turn :=
  let next := byteAt? text s.pos
  match s.state with
  | .gap =>
    match next with
    | none => return .stop (.ok s.out)
    | some c => return .next ({ s with start := s.pos }.takeIn (.opened c))
  | .minus =>
    if next.any Lexer.startsNumber then return .next (s.takeIn .number)
    else return .next (s.emit (.binary .subtract) none)
  | .number =>
    if next.any Lexer.continuesNumber then return .next (s.takeIn .number)
    else s.close text .number next
  | .word =>
    if next.any Char.isAlphanum then return .next (s.takeIn .word)
    else s.close text .word next
  | .symbol => s.closeSymbol text next

def run (text : String) : Nat → Scanner → Cutting Turn
  | 0, s => return .next s
  | n + 1, s => do
    match ← s.turn text with
    | .next s' => run text n s'
    | .stop result => return .stop result

end Scanner

end Bytebeat
