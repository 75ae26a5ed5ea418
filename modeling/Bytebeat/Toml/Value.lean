/-!
# TOML values

A document is a table. Tables remember how they came to be, which decides
whether a later line may add to them: a table named by a header is closed to
dotted keys, one implied by a longer header may still get a header of its own,
and an inline table is closed to all.
-/

namespace Bytebeat.Toml

/-- How a table came to be. -/
inductive Origin where
  /-- Written in braces. -/
  | inline
  /-- Named by a header; the whole document counts as such. -/
  | header
  /-- Passed through by the header of another table. -/
  | implied
  /-- Passed through by a dotted key. -/
  | dotted
  deriving DecidableEq, Repr

inductive Value where
  | string (s : String)
  | integer (n : Int)
  | float (x : Float)
  | boolean (b : Bool)
  /-- A date, a time or both. -/
  | moment (text : String)
  | array (items : List Value)
  | table (origin : Origin) (entries : List (String × Value))
  /-- An array of tables with headers, the latest first. -/
  | tables (latestFirst : List Value)
  deriving Repr

namespace Value

def items? : Value → Option (List Value)
  | array items => some items
  | tables latestFirst => some latestFirst.reverse
  | _ => none

/-- Replaces the value at a key, or adds it at the end. -/
def put (key : String) (v : Value) : List (String × Value) → List (String × Value)
  | [] => [(key, v)]
  | (k, old) :: rest => if k = key then (key, v) :: rest else (k, old) :: put key v rest

/-- The table that a key leads into, given what is there, and how to put it back once changed. A
missing table is created. -/
def enter? (dotted : Bool) : Option Value → Option (Value × (Value → Value))
  | none => some (.table (if dotted then .dotted else .implied) [], id)
  | some (.table origin entries) =>
    if origin = .inline ∨ (dotted = true ∧ origin = .header) then none
    else some (.table origin entries, id)
  | some (.tables (latest :: earlier)) => some (latest, fun t => .tables (t :: earlier))
  | some _ => none

/-- Changes the table at the end of a path; `dotted` tells whether the path is that of a dotted
key or of a header. -/
def update? (dotted : Bool) (change : Value → Option Value) : List String → Value → Option Value
  | [], t => change t
  | key :: path, .table origin entries =>
    match enter? dotted (entries.lookup key) with
    | none => none
    | some (inner, putBack) =>
      (update? dotted change path inner).map fun t => .table origin (put key (putBack t) entries)
  | _ :: _, _ => none

def addKey? (t : Value) (key : String) (v : Value) : Option Value :=
  match t with
  | .table origin entries =>
    if (entries.lookup key).isSome then none else some (.table origin (entries ++ [(key, v)]))
  | _ => none

/-- Adds a value at a key with a path before it. With a path the key must end up in a table made
by dotted keys, without one in a table that is not. -/
def addPair? (t : Value) (path : List String) (key : String) (v : Value) : Option Value :=
  update? true (fun
    | .table origin entries =>
      if (origin = .dotted) ↔ (path = []) then none else addKey? (.table origin entries) key v
    | _ => none) path t

/-- Opens the table `key` by a header of its own: a new table or one only implied so far. -/
def openTable? (key : String) : Value → Option Value
  | .table origin entries =>
    match entries.lookup key with
    | none => some (.table origin (entries ++ [(key, .table .header [])]))
    | some (.table .implied inner) => some (.table origin (put key (.table .header inner) entries))
    | some _ => none
  | _ => none

/-- Opens a further table of the array of tables `key`. -/
def openElement? (key : String) : Value → Option Value
  | .table origin entries =>
    match entries.lookup key with
    | none => some (.table origin (entries ++ [(key, .tables [.table .header []])]))
    | some (.tables earlier) =>
      some (.table origin (put key (.tables (.table .header [] :: earlier)) entries))
    | some _ => none
  | _ => none

end Value

end Bytebeat.Toml
