import Bytebeat.Toml.Quoted
import Bytebeat.Toml.Scalar

/-!
# TOML documents

Reading a document line by line into the table it describes. A document that
breaks a rule of the format has no table.
-/

namespace Bytebeat.Toml.Document

/-- The depth to which arrays and inline tables can be nested, and the most parts of a key. -/
def maxDepth : Nat := 79

def isBlank (c : Char) : Bool := c == ' ' || c == '\t'

def dropBlanks (cs : List Char) : List Char := cs.dropWhile isBlank

def dropComment : List Char → List Char
  | '#' :: cs => cs.dropWhile Quoted.isPlain
  | cs => cs

/-- The text after the end of a line, which can have a comment and which the end of the text
counts as. -/
def dropLineEnd? (cs : List Char) : Option (List Char) :=
  match dropComment (dropBlanks cs) with
  | [] => some []
  | cs => Quoted.dropLineBreak? cs

/-- Drops blanks, line breaks and comments, as between the items of an array. -/
def dropGap (cs : List Char) : List Char :=
  match cs with
  | ' ' :: rest => dropGap rest
  | '\t' :: rest => dropGap rest
  | '\n' :: rest => dropGap rest
  | '\r' :: '\n' :: rest => dropGap rest
  | '#' :: rest => dropGap (rest.dropWhile Quoted.isPlain)
  | cs => cs
termination_by cs.length
decreasing_by
  all_goals try (simp only [List.length_cons]; omega)
  have := (List.dropWhile_sublist (l := rest) Quoted.isPlain).length_le
  simp only [List.length_cons]
  omega

/-- The text after a given mark and blanks before it. -/
def dropMark? (c : Char) (cs : List Char) : Option (List Char) :=
  match dropBlanks cs with
  | d :: rest => if d = c then some rest else none
  | [] => none

def isBareKeyChar (c : Char) : Bool := c.isAlphanum || c == '-' || c == '_'

def readKeyPart? (cs : List Char) : Option (String × List Char) :=
  match cs with
  | '"' :: rest => (Quoted.readBasic? rest).map fun (s, rest) => (String.ofList s, rest)
  | '\'' :: rest => (Quoted.readLiteral? rest).map fun (s, rest) => (String.ofList s, rest)
  | cs =>
    let bare := cs.takeWhile isBareKeyChar
    if bare.isEmpty then none else some (String.ofList bare, cs.dropWhile isBareKeyChar)

/-- Reads a key of at most so many parts, separated by points: the parts before the last, the
last, and the text after it. -/
def readKey? : (parts : Nat) → List Char → Option (List String × String × List Char)
  | 0, _ => none
  | parts + 1, cs =>
    match readKeyPart? (dropBlanks cs) with
    | none => none
    | some (part, rest) =>
      match dropMark? '.' rest with
      | none => some ([], part, rest)
      | some rest => (readKey? parts rest).map fun (path, last, rest) => (part :: path, last, rest)

/-- Reads the items of an array, after the opening bracket or a comma. -/
def readItems? (item : List Char → Option (Value × List Char)) :
    (fuel : Nat) → List Char → Option (List Value × List Char)
  | 0, _ => none
  | fuel + 1, cs =>
    match dropGap cs with
    | ']' :: rest => some ([], rest)
    | cs =>
      match item cs with
      | none => none
      | some (v, rest) =>
        match dropGap rest with
        | ']' :: rest => some ([v], rest)
        | ',' :: rest => (readItems? item fuel rest).map fun (vs, rest) => (v :: vs, rest)
        | _ => none

/-- Reads the pairs of an inline table into `t`, after the opening brace or a comma. -/
def readPairs? (item : List Char → Option (Value × List Char)) :
    (fuel : Nat) → Value → List Char → Option (Value × List Char)
  | 0, _, _ => none
  | fuel + 1, t, cs => do
    let (path, key, rest) ← readKey? maxDepth cs
    let rest ← dropMark? '=' rest
    let (v, rest) ← item (dropBlanks rest)
    let t ← t.addPair? path key v
    match dropBlanks rest with
    | '\x7d' :: rest => some (t, rest)
    | ',' :: rest => readPairs? item fuel t rest
    | _ => none

def readSimple? (cs : List Char) : Option (Value × List Char) :=
  match cs with
  | '"' :: _ | '\'' :: _ => (Quoted.read? cs).map fun (s, rest) => (.string (String.ofList s), rest)
  | cs => Scalar.read? cs

/-- Reads a value in which arrays and inline tables are nested at most so deep. -/
def readValue? : (depth : Nat) → List Char → Option (Value × List Char)
  | 0, cs => readSimple? cs
  | depth + 1, cs =>
    match cs with
    | '[' :: rest =>
      (readItems? (readValue? depth) cs.length rest).map fun (vs, rest) => (.array vs, rest)
    | '\x7b' :: rest =>
      match dropBlanks rest with
      | '\x7d' :: rest => some (.table .inline [], rest)
      | rest => readPairs? (readValue? depth) cs.length (.table .inline []) rest
    | cs => readSimple? cs

/-- A document being read: its table so far and the path to the table that pairs go to. -/
structure State where
  root : Value := .table .header []
  path : List String := []
  deriving Repr

/-- Reads one line: the table it adds to and the text after it. -/
def readLine? (s : State) (cs : List Char) : Option (State × List Char) :=
  match cs with
  | '[' :: '[' :: rest => do
    let (path, key, rest) ← readKey? maxDepth rest
    let rest ← dropMark? ']' rest
    let rest ← match rest with
      | ']' :: rest => some rest
      | _ => none
    let rest ← dropLineEnd? rest
    let root ← Value.update? false (Value.openElement? key) path s.root
    return (⟨root, path ++ [key]⟩, rest)
  | '[' :: rest => do
    let (path, key, rest) ← readKey? maxDepth rest
    let rest ← dropMark? ']' rest
    let rest ← dropLineEnd? rest
    let root ← Value.update? false (Value.openTable? key) path s.root
    return (⟨root, path ++ [key]⟩, rest)
  | '#' :: _ | '\n' :: _ | '\r' :: _ => (dropLineEnd? cs).map (s, ·)
  | cs => do
    let (path, key, rest) ← readKey? maxDepth cs
    let rest ← dropMark? '=' rest
    let (v, rest) ← readValue? maxDepth (dropBlanks rest)
    let rest ← dropLineEnd? rest
    let root ← Value.update? false (·.addPair? path key v) s.path s.root
    return ({ s with root }, rest)

def readLines? : (fuel : Nat) → State → List Char → Option Value
  | 0, _, _ => none
  | fuel + 1, s, cs =>
    match dropBlanks cs with
    | [] => some s.root
    | cs =>
      match readLine? s cs with
      | some (s, rest) => readLines? fuel s rest
      | none => none

/-- The table that a document describes. A byte order mark at its start is ignored. -/
def read? (text : String) : Option Value :=
  let cs := match text.toList with
    | '\ufeff' :: cs => cs
    | cs => cs
  readLines? (cs.length + 1) {} cs

end Bytebeat.Toml.Document
