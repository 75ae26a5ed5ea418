import Bytebeat.Proofs.Numbering
import Bytebeat.Proofs.Tables

/-!
# Patch files read back

A patch file is read as the patch that it was written for, with nodes named by
their places, if the patch is wired soundly; if not, the fault of the wiring is
reported (`PatchFile.load_save`).
-/

namespace Bytebeat.PatchFile

open Toml (Value)
open Toml.Document (IsBare Leads View Writes leads_blank leads_blocks leads_element leads_field
  leads_pair writes_boolean writes_nil writes_string writes_toDigits)
open Toml.Value (ofTables)

/-! ## Nodes and connections -/

def nodeFields : NodeKind → List (String × Value)
  | .expression text => [("kind", .string "expression"), ("expression", .string text)]
  | .output stereo => [("kind", .string "output"), ("stereo", .boolean stereo)]

def connectionFields (c : Connection) : List (String × Value) :=
  [("from", .integer c.source.toNat), ("to", .integer c.target.toNat),
    ("channel", .integer c.channel.toNat)]

theorem node?_nodeFields (kind : NodeKind) : node? (.table .header (nodeFields kind)) = some kind := by
  cases kind <;> rfl

theorem nodeId?_integer (id : NodeId) : nodeId? (.integer id.toNat) = some id := by
  have hlt : (id.toNat : Int) < UInt16.size := Int.ofNat_lt.2 id.toNat_lt
  rw [nodeId?, natBelow?, if_pos ⟨Int.natCast_nonneg _, hlt⟩, Option.map_some, Int.toNat_natCast,
    UInt16.ofNat_toNat]

theorem channel?_integer (channel : UInt8) : channel? (.integer channel.toNat) = some channel := by
  have hlt : (channel.toNat : Int) < UInt8.size := Int.ofNat_lt.2 channel.toNat_lt
  rw [channel?, natBelow?, if_pos ⟨Int.natCast_nonneg _, hlt⟩, Option.map_some, Int.toNat_natCast,
    UInt8.ofNat_toNat]

theorem le_maxValue_of_lt {n : Nat} (h : n < UInt16.size) : (n : Int) ≤ Int64.maxValue.toInt := by
  have hmax : Int64.maxValue.toInt = 9223372036854775807 := by decide
  have hsize : UInt16.size = 65536 := rfl
  omega

theorem connection?_connectionFields (c : Connection) :
    connection? (.table .header (connectionFields c)) = some c := by
  have hsource : field? nodeId? none "from" (connectionFields c) = some c.source :=
    nodeId?_integer c.source
  have htarget : field? nodeId? none "to" (connectionFields c) = some c.target :=
    nodeId?_integer c.target
  have hchannel : field? channel? (some 0) "channel" (connectionFields c) = some c.channel :=
    channel?_integer c.channel
  unfold connection?
  simp only [hsource, htarget, hchannel]
  rfl

theorem toList_pairLine {start key : String} (h : start.toList = key.toList ++ [' ', '=', ' '])
    (cs : List Char) : (start ++ String.ofList cs).toList = key.toList ++ ' ' :: '=' :: ' ' :: cs := by
  rw [String.toList_append, String.toList_ofList, h, List.append_assoc]
  rfl

variable {path : List String} {table : String → Option Value} {ts : List Value}

theorem leads_nodeLines (kind : NodeKind) (hts : table "node" = ofTables ts) :
    Leads (nodeLines kind) ⟨path, table⟩ (.latest "node" table ts (nodeFields kind)) := by
  have hopen : Leads ["", "[[node]]"] ⟨path, table⟩ (.latest "node" table ts []) :=
    (leads_blank _).cons (leads_element rfl ⟨by decide, by decide⟩ hts)
  cases kind with
  | expression text =>
    refine hopen.append (.cons (leads_field _ "kind" ⟨by decide, by decide⟩
      (writes_string "expression") rfl rfl) ?_)
    exact leads_field _ "expression" ⟨by decide, by decide⟩ (writes_string text)
      (toList_pairLine rfl _) rfl
  | output stereo =>
    refine hopen.append (.cons (leads_field _ "kind" ⟨by decide, by decide⟩
      (writes_string "output") rfl rfl) ?_)
    exact leads_field _ "stereo" ⟨by decide, by decide⟩ (writes_boolean stereo)
      (by cases stereo <;> rfl) rfl

theorem leads_numberField {key : String} (start field : String)
    (hstart : start.toList = field.toList ++ [' ', '=', ' ']) (hfield : IsBare field.toList)
    {fields : List (String × Value)} (hnew : fields.lookup field = none) {n : Nat}
    (hn : n ≤ Int64.maxValue.toInt) :
    Leads [start ++ toString n] (.latest key table ts fields)
      (.latest key table ts (fields ++ [(field, .integer n)])) :=
  leads_field _ field hfield (writes_toDigits hn)
    (by rw [Nat.toString_eq_ofList_toDigits]; exact toList_pairLine hstart _) hnew

theorem leads_connectionLines (c : Connection) (hts : table "connection" = ofTables ts) :
    Leads (connectionLines c) ⟨path, table⟩
      (.latest "connection" table ts (connectionFields c)) := by
  have hopen : Leads ["", "[[connection]]"] ⟨path, table⟩ (.latest "connection" table ts []) :=
    (leads_blank _).cons (leads_element rfl ⟨by decide, by decide⟩ hts)
  refine hopen.append (.cons (leads_numberField "from = " "from" rfl ⟨by decide, by decide⟩ rfl
    (le_maxValue_of_lt c.source.toNat_lt)) ?_)
  refine .cons (leads_numberField "to = " "to" rfl ⟨by decide, by decide⟩ rfl
    (le_maxValue_of_lt c.target.toNat_lt)) ?_
  exact leads_numberField "channel = " "channel" rfl ⟨by decide, by decide⟩ rfl
    (le_maxValue_of_lt (Nat.lt_trans c.channel.toNat_lt (by decide)))

/-! ## Whole files -/

def written (vs : List Value) : Value := if vs.isEmpty then .array [] else .tables vs.reverse

theorem ofTables_reverse {vs : List Value} (h : vs ≠ []) :
    ofTables vs.reverse = some (written vs) := by
  obtain ⟨t, ts, hts⟩ := List.exists_cons_of_ne_nil (List.reverse_ne_nil_iff.2 h)
  rw [written, if_neg (by simpa using h), hts]
  rfl

theorem items?_written {α : Type} {read : Value → Option α} {write : α → Value}
    (h : ∀ x, read (write x) = some x) (xs : List α) :
    items? read (written (xs.map write)) = some xs := by
  have hitems : (written (xs.map write)).items? = some (xs.map write) := by
    cases xs with
    | nil => rfl
    | cons x xs => exact congrArg some (List.reverse_reverse _)
  have hmap : ∀ xs : List α, (xs.map write).mapM read = some xs := by
    intro xs
    induction xs with
    | nil => rfl
    | cons x xs ih => rw [List.map_cons, List.mapM_cons, h, ih]; rfl
  rw [items?, hitems, Option.bind_some, hmap]

theorem leads_emptyLine (key line : String) (hkey : IsBare key.toList) (hline : line = key ++ " = []")
    (hnew : table key = none) (empty : Bool) :
    Leads (if empty then [line] else []) ⟨[], table⟩
      ⟨[], if empty then Function.update table key (some (.array [])) else table⟩ := by
  cases empty with
  | false => exact .nil _
  | true => exact leads_pair line key hkey writes_nil (by rw [hline, String.toList_append]; rfl) hnew

/-- The blocks of a list add its tables, unless the list is empty and has been written. -/
theorem leads_listed {α : Type} {block : α → List String} {fields : α → List (String × Value)}
    {key : String} (hblock : ∀ x path table ts, table key = ofTables ts →
      Leads (block x) ⟨path, table⟩ (.latest key table ts (fields x)))
    (xs : List α) (path : List String)
    (h : table key = if xs.isEmpty then some (.array []) else none) :
    ∃ path', Leads (xs.flatMap block) ⟨path, table⟩
      ⟨path', Function.update table key (some (written (xs.map fun x => .table .header (fields x))))⟩ := by
  cases xs with
  | nil =>
    refine ⟨path, ?_⟩
    rw [List.map_nil, Function.update_eq_self_iff.2 h.symm]
    exact .nil _
  | cons x xs =>
    obtain ⟨path', hleads⟩ := leads_blocks hblock (x :: xs) path table [] h
    have hne : (x :: xs).map (fun x => Value.table .header (fields x)) ≠ [] := List.cons_ne_nil _ _
    rw [List.append_nil, ofTables_reverse hne] at hleads
    exact ⟨path', hleads⟩

/-- The table after the version and the arrays without items. -/
def startTable (noNodes noConnections : Bool) : String → Option Value :=
  let version := Function.update (fun _ => none) "version" (some (.integer currentVersion))
  let nodes := if noNodes then Function.update version "node" (some (.array [])) else version
  if noConnections then Function.update nodes "connection" (some (.array [])) else nodes

theorem startTable_version (noNodes noConnections : Bool) :
    startTable noNodes noConnections "version" = some (.integer currentVersion) := by
  cases noNodes <;> cases noConnections <;> rfl

theorem startTable_node (noNodes noConnections : Bool) :
    startTable noNodes noConnections "node" = if noNodes then some (.array []) else none := by
  cases noNodes <;> cases noConnections <;> rfl

theorem startTable_connection (noNodes noConnections : Bool) :
    startTable noNodes noConnections "connection" =
      if noConnections then some (.array []) else none := by
  cases noNodes <;> cases noConnections <;> rfl

theorem leads_start (noNodes noConnections : Bool) :
    Leads ([s!"version = {currentVersion}"] ++ (if noNodes then ["node = []"] else []) ++
        if noConnections then ["connection = []"] else [])
      ⟨[], fun _ => none⟩ ⟨[], startTable noNodes noConnections⟩ := by
  have hversion : Leads [s!"version = {currentVersion}"] ⟨[], fun _ => none⟩
      ⟨[], Function.update (fun _ => none) "version" (some (.integer currentVersion))⟩ :=
    leads_pair _ "version" ⟨by decide, by decide⟩
      (writes_toDigits (le_maxValue_of_lt (by decide : currentVersion < UInt16.size))) rfl rfl
  have hnodes := hversion.append
    (leads_emptyLine "node" "node = []" ⟨by decide, by decide⟩ rfl rfl noNodes)
  have hnew : (if noNodes then Function.update (Function.update (fun _ => none) "version"
        (some (.integer currentVersion))) "node" (some (.array []))
      else Function.update (fun _ => none) "version" (some (.integer currentVersion)))
        "connection" = (none : Option Value) := by
    cases noNodes <;> rfl
  exact hnodes.append
    (leads_emptyLine "connection" "connection = []" ⟨by decide, by decide⟩ rfl hnew noConnections)

theorem leads_lines (p : Patch) :
    ∃ v : View, Leads (lines p) ⟨[], fun _ => none⟩ v ∧
      v.table "version" = some (.integer currentVersion) ∧
      v.table "node" =
        some (written (p.nodes.toList.map fun n => .table .header (nodeFields n.kind))) ∧
      v.table "connection" =
        some (written (p.connections.map fun c => .table .header (connectionFields c))) := by
  have hstart := leads_start p.nodes.isEmpty p.connections.isEmpty
  obtain ⟨table, htable⟩ : ∃ table, table = startTable p.nodes.isEmpty p.connections.isEmpty := ⟨_, rfl⟩
  have hnode : table "node" = if p.nodes.toList.isEmpty then some (.array []) else none := by
    rw [htable, startTable_node, Array.isEmpty_toList]
  obtain ⟨path, hnodes⟩ := leads_listed
    (fun (n : Node) _ _ _ hts => leads_nodeLines n.kind hts) p.nodes.toList [] hnode
  have hconnection : Function.update table "node"
      (some (written (p.nodes.toList.map fun n => .table .header (nodeFields n.kind)))) "connection" =
        if p.connections.isEmpty then some (.array []) else none := by
    rw [Function.update_of_ne (by decide), htable, startTable_connection]
  obtain ⟨path', hconnections⟩ := leads_listed
    (fun c _ _ _ hts => leads_connectionLines c hts) p.connections path hconnection
  rw [← htable] at hstart
  refine ⟨_, (hstart.append hnodes).append hconnections, ?_, ?_, ?_⟩
  · dsimp only
    rw [Function.update_of_ne (by decide), Function.update_of_ne (by decide), htable,
      startTable_version]
  · dsimp only
    rw [Function.update_of_ne (by decide), Function.update_self]
  · dsimp only
    rw [Function.update_self]

/-- The document that is written says what the patch holds. -/
theorem contents?_save (p : Patch) :
    (Toml.Document.read? (save p)).bind contents? =
      some (currentVersion, p.kinds, p.connections) := by
  obtain ⟨v, hleads, hversion, hnodes, hconnections⟩ := leads_lines p
  obtain ⟨s, hread, -, entries, hroot, htable⟩ := hleads {} ⟨rfl, [], rfl, rfl⟩
  have hmark : (Toml.Document.joinLines (lines p)).toList.head? ≠ some '\ufeff' := by
    rw [lines, List.append_assoc, List.append_assoc, List.append_assoc, List.singleton_append,
      Toml.Document.toList_joinLines_cons]
    exact fun h => absurd (Option.some.inj h) (by decide)
  have hsave : Toml.Document.read? (save p) = some s.root := hread.read? hmark
  have hlookup : ∀ key, entries.lookup key = v.table key := congrFun htable
  have hfieldVersion : field? (natBelow? UInt32.size) (some currentVersion) "version" entries =
      some currentVersion := by
    rw [field?, hlookup, hversion]
    rfl
  have hfieldNode : field? (items? node?) (some []) "node" entries =
      some p.kinds := by
    rw [field?, hlookup, hnodes]
    have hmap : p.nodes.toList.map (fun n => Value.table .header (nodeFields n.kind)) =
        p.kinds.map fun kind => .table .header (nodeFields kind) := by
      rw [Patch.kinds, List.map_map]
      rfl
    rw [hmap]
    exact items?_written node?_nodeFields p.kinds
  have hfieldConnection : field? (items? connection?) (some []) "connection" entries =
      some p.connections := by
    rw [field?, hlookup, hconnections]
    exact items?_written connection?_connectionFields p.connections
  rw [hsave, Option.bind_some, hroot, contents?]
  simp only [hfieldVersion, hfieldNode, hfieldConnection]
  rfl

/-! ## Loading what was saved -/

theorem load_save_eq (p : Patch) :
    load (save p) =
      match p.checkConnections with
      | .ok () => .ok p.renumbered
      | .error e => .error (.wiring e) := by
  cases hcheck : p.checkConnections <;>
    simp only [load, contents?_save, Nat.lt_irrefl, if_false, Patch.ofKinds_kinds,
      Patch.checkConnections_renumbered, hcheck]

/-- **Patch files round-trip.** Saving and loading a patch names its nodes by their places, modulo
`2 ^ 16`, if its connections pass their check, and reports what the check finds if not. A patch
that has been loaded is loaded again as it is. -/
theorem load_save :
    (∀ p : Patch, load (save p) =
      match p.checkConnections with
      | .ok () => .ok { p with nodes := p.nodes.mapIdx fun i n => { n with id := UInt16.ofNat i } }
      | .error e => .error (.wiring e)) ∧
    ∀ text q, load text = .ok q → load (save q) = .ok q := by
  refine ⟨load_save_eq, fun text q h => ?_⟩
  obtain ⟨hnumbered, hsound⟩ := sound_of_load h
  rw [load_save_eq, hsound, hnumbered.renumbered_eq]

/-- A text with quotes of both kinds, a backslash and control characters; a connection at fault; and
a file that leaves out all that it can. -/
theorem load_save_hard_text :
    load (save (.single "\"\"\"\"'''\\\x0d\n\x7f\"\"")) =
        .ok (.single "\"\"\"\"'''\\\x0d\n\x7f\"\"") ∧
      load (save ((Patch.single "t").connect ⟨1, 0, 0⟩)) = .error (.wiring (.notASource 1)) ∧
      ∃ q, load "[[node]]\nkind = 'expression'\n" = .ok q ∧ load (save q) = .ok q := by
  have hbare : load "[[node]]\nkind = 'expression'\n" = .ok ⟨#[⟨0, .expression ""⟩], []⟩ := by
    decide +kernel
  exact ⟨load_save.1 _, load_save.1 _, _, hbare, load_save.2 _ _ hbare⟩

end Bytebeat.PatchFile
