import Bytebeat.Patch.Wiring
import Bytebeat.Toml.Document

/-!
# Patch files

A patch file is a TOML document with a format version and two arrays of
tables, the nodes and the connections. Nodes are named by their places. Keys
that a patch file does not know are ignored.
-/

namespace Bytebeat

inductive PatchFileError where
  /-- The text is no document, or a value has not the type it should have. -/
  | malformed
  | unsupportedVersion (version : Nat)
  | wiring (e : WiringError)
  deriving DecidableEq, Repr

def PatchFileError.message : PatchFileError → String
  | malformed => "malformed patch file"
  | unsupportedVersion version => s!"unsupported patch version {version}"
  | wiring e => "invalid patch: " ++ e.message

namespace PatchFile

open Toml (Value)

/-- The version that is written, and the greatest that is read. -/
def currentVersion : Nat := 1

/-! ## Reading -/

def natBelow? (limit : Nat) : Value → Option Nat
  | .integer n => if 0 ≤ n ∧ n < limit then some n.toNat else none
  | _ => none

def string? : Value → Option String
  | .string s => some s
  | _ => none

def boolean? : Value → Option Bool
  | .boolean b => some b
  | _ => none

/-- The value at a key read by `read`, or `default` where the key is missing. -/
def field? {α : Type} (read : Value → Option α) (default : Option α) (key : String)
    (entries : List (String × Value)) : Option α :=
  match entries.lookup key with
  | some v => read v
  | none => default

/-- The value of a place in a row read by `read`, or `default` where the row ends before it. -/
def place? {α : Type} (read : Value → Option α) (default : Option α) (i : Nat)
    (row : List Value) : Option α :=
  match row[i]? with
  | some v => read v
  | none => default

/-- A node: a table, or an array with the kind first. -/
def node? : Value → Option NodeKind
  | .table _ entries =>
    match entries.lookup "kind" with
    | some (.string "expression") =>
      (field? string? (some "") "expression" entries).map .expression
    | some (.string "output") => (field? boolean? (some false) "stereo" entries).map .output
    | _ => none
  | .array (.string kind :: row) =>
    if 1 < row.length then none
    else if kind = "expression" then (place? string? (some "") 0 row).map .expression
    else if kind = "output" then (place? boolean? (some false) 0 row).map .output
    else none
  | _ => none

def nodeId? (v : Value) : Option NodeId := (natBelow? UInt16.size v).map UInt16.ofNat

def channel? (v : Value) : Option UInt8 := (natBelow? UInt8.size v).map UInt8.ofNat

/-- A connection: a table, or an array of source, target and channel. -/
def connection? : Value → Option Connection
  | .table _ entries => do
    let source ← field? nodeId? none "from" entries
    let target ← field? nodeId? none "to" entries
    let channel ← field? channel? (some 0) "channel" entries
    return ⟨source, target, channel⟩
  | .array row => do
    let source ← place? nodeId? none 0 row
    let target ← place? nodeId? none 1 row
    let channel ← place? channel? (some 0) 2 row
    return ⟨source, target, channel⟩
  | _ => none

def items? {α : Type} (read : Value → Option α) (v : Value) : Option (List α) :=
  v.items?.bind (·.mapM read)

/-- What a patch file says: its version, nodes and connections. -/
def contents? : Value → Option (Nat × List NodeKind × List Connection)
  | .table _ entries => do
    let version ← field? (natBelow? UInt32.size) (some currentVersion) "version" entries
    let kinds ← field? (items? node?) (some []) "node" entries
    let connections ← field? (items? connection?) (some []) "connection" entries
    return (version, kinds, connections)
  | _ => none

/-- The patch in a patch file. Its connections are checked; its expressions need not compile. -/
def load (text : String) : Except PatchFileError Patch :=
  match (Toml.Document.read? text).bind contents? with
  | none => .error .malformed
  | some (version, kinds, connections) =>
    if currentVersion < version then .error (.unsupportedVersion version)
    else
      let patch := Patch.ofKinds kinds connections
      match patch.checkConnections with
      | .ok () => .ok patch
      | .error e => .error (.wiring e)

/-! ## Writing -/

def nodeLines : NodeKind → List String
  | .expression text =>
    ["", "[[node]]", "kind = \"expression\"",
      "expression = " ++ String.ofList (Toml.Quoted.write text.toList)]
  | .output stereo =>
    ["", "[[node]]", "kind = \"output\"", if stereo then "stereo = true" else "stereo = false"]

def connectionLines (c : Connection) : List String :=
  ["", "[[connection]]", s!"from = {c.source.toNat}", s!"to = {c.target.toNat}",
    s!"channel = {c.channel.toNat}"]

/-- The lines of a patch file. An array without items is written before the tables. -/
def lines (p : Patch) : List String :=
  [s!"version = {currentVersion}"] ++
    (if p.nodes.isEmpty then ["node = []"] else []) ++
    (if p.connections.isEmpty then ["connection = []"] else []) ++
    p.nodes.toList.flatMap (nodeLines ·.kind) ++ p.connections.flatMap connectionLines

def save (p : Patch) : String := String.join ((lines p).map (· ++ "\n"))

end PatchFile

end Bytebeat
