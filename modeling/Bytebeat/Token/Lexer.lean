import Bytebeat.Decimal.Reading
import Bytebeat.Token

/-!
# The lexer

A text is split from the left into lexemes, each as long as its shape allows;
whatever is not printable ASCII separates lexemes and is otherwise ignored. A
lexeme is classified by its own spelling and the character after it. The
values of literals are kept apart from the tokens, in the order written.
-/

namespace Bytebeat

inductive LexFault where
  /-- A word that names no token. -/
  | unknownWord
  /-- A symbol that is no token, alone or with the one after it. -/
  | unknownSymbol
  /-- A literal that is no decimal number. -/
  | malformedNumber
  /-- A named operator with an opening parenthesis right after it. -/
  | callSyntax
  deriving DecidableEq, Repr

/-- A faulty lexeme: its spelling, cut short, and the byte it starts at. -/
structure LexError where
  fault : LexFault
  spelling : String
  offset : Nat
  deriving DecidableEq, Repr

/-- The length that a spelling is cut to in an error. -/
def LexError.spellingLimit : Nat := 16

def LexError.message (e : LexError) : String :=
  match e.fault with
  | .unknownWord => s!"unknown word '{e.spelling}' at {e.offset}"
  | .unknownSymbol => s!"unknown symbol '{e.spelling}' at {e.offset}"
  | .malformedNumber => s!"malformed number '{e.spelling}' at {e.offset}"
  | .callSyntax =>
    s!"'{e.spelling}(' at {e.offset}: operators take their operand without call parentheses"

/-- A text taken apart: its tokens and the values of its literals. -/
structure TokenText where
  tokens : List Token := []
  literals : List Float := []
  deriving DecidableEq, BEq, Repr

def TokenText.cons (t : Token) (value : Option Float) (text : TokenText) : TokenText :=
  ⟨t :: text.tokens, value.toList ++ text.literals⟩

/-- How a lexeme is delimited. -/
inductive LexemeShape where
  | number
  | word
  | symbol
  deriving DecidableEq, Repr

structure Lexeme where
  shape : LexemeShape
  spelling : List Char
  deriving DecidableEq, Repr

namespace Lexer

/-- Printable ASCII other than the space. -/
def isGraphic (c : Char) : Bool := '!' ≤ c && c ≤ '~'

def startsNumber (c : Char) : Bool := c.isDigit || c == '.'

/-- Characters of a literal; `x` is taken into it only to be refused with it. -/
def continuesNumber (c : Char) : Bool := startsNumber c || c == 'x'

def nextIs (p : Char → Bool) (cs : List Char) : Bool := cs.head?.any p

/-- The lexeme that starts with the graphic character `c`, and the text after it. -/
def munch (c : Char) (cs : List Char) : Lexeme × List Char :=
  if startsNumber c || (c == '-' && nextIs startsNumber cs) then
    (⟨.number, c :: cs.takeWhile continuesNumber⟩, cs.dropWhile continuesNumber)
  else if c.isAlpha then
    (⟨.word, c :: cs.takeWhile Char.isAlphanum⟩, cs.dropWhile Char.isAlphanum)
  else
    match cs with
    | [] => (⟨.symbol, [c]⟩, [])
    | d :: ds =>
      if isGraphic d && (Token.ofSpelling? (String.ofList [c, d])).isSome then
        (⟨.symbol, [c, d]⟩, ds)
      else (⟨.symbol, [c]⟩, d :: ds)

theorem munch_length (c : Char) (cs : List Char) : (munch c cs).2.length ≤ cs.length := by
  unfold munch
  split
  · exact (List.dropWhile_sublist _).length_le
  · split
    · exact (List.dropWhile_sublist _).length_le
    · split
      · simp
      · split <;> simp

/-- The token a lexeme stands for, with its value if it is a literal. -/
def classify (l : Lexeme) (rest : List Char) : Except LexFault (Token × Option Float) :=
  match l.shape with
  | .number =>
    match Decimal.readFloat? l.spelling with
    | some v => .ok (.atom .number, some v)
    | none => .error .malformedNumber
  | .word =>
    match Token.ofSpelling? (String.ofList l.spelling) with
    | none => .error .unknownWord
    | some t =>
      if t.arity == .unary && nextIs (· == '(') rest then .error .callSyntax else .ok (t, none)
  | .symbol =>
    match Token.ofSpelling? (String.ofList l.spelling) with
    | none => .error .unknownSymbol
    | some t => .ok (t, none)

/-- Takes apart the text `cs`, which starts at byte `offset`. -/
def scan (offset : Nat) (cs : List Char) : Except LexError TokenText :=
  match cs with
  | [] => .ok {}
  | c :: cs =>
    if isGraphic c then
      let m := munch c cs
      match classify m.1 m.2 with
      | .error fault =>
        .error ⟨fault, String.ofList (m.1.spelling.take LexError.spellingLimit), offset⟩
      | .ok (t, value) => (scan (offset + m.1.spelling.length) m.2).map (TokenText.cons t value)
    else scan (offset + c.utf8Size) cs
termination_by cs.length
decreasing_by
  · exact Nat.lt_succ_of_le (munch_length c cs)
  · exact Nat.lt_succ_self _

end Lexer

def tokenize (text : String) : Except LexError TokenText := Lexer.scan 0 text.toList

end Bytebeat
