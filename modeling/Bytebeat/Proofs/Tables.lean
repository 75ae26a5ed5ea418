import Bytebeat.Proofs.Document

/-!
# Tables of documents

The table of a document, seen through its values alone (`Document.View`), and
what lines do to it: lines lead from one view to another (`Document.Leads`),
whatever the order of the values is.
-/

namespace Bytebeat.Toml

namespace Value

theorem lookup_append_single {entries : List (String × Value)} {key : String}
    (h : entries.lookup key = none) (v : Value) (k : String) :
    (entries ++ [(key, v)]).lookup k = Function.update (entries.lookup ·) key (some v) k := by
  rw [List.lookup_append]
  by_cases hk : k = key
  · subst hk
    rw [h, Function.update_self]
    simp
  · have hne : (k == key) = false := beq_eq_false_iff_ne.2 hk
    rw [Function.update_of_ne hk, List.lookup_cons, hne]
    simp

theorem lookup_put (entries : List (String × Value)) (key : String) (v : Value) (k : String) :
    (put key v entries).lookup k = Function.update (entries.lookup ·) key (some v) k := by
  induction entries with
  | nil =>
    have hnone : ([] : List (String × Value)).lookup key = none := rfl
    exact lookup_append_single hnone v k
  | cons e entries ih =>
    obtain ⟨k', old⟩ := e
    rw [put]
    by_cases hkey : k' = key
    · subst hkey
      by_cases hk : k = k'
      · subst hk
        rw [if_pos rfl, Function.update_self, List.lookup_cons_self]
      · have hne : (k == k') = false := beq_eq_false_iff_ne.2 hk
        simp only [if_true, Function.update_of_ne hk, List.lookup_cons, hne]
    · rw [if_neg hkey, List.lookup_cons, ih]
      by_cases hk : k = k'
      · subst hk
        simp [Function.update_of_ne hkey]
      · have hne : (k == k') = false := beq_eq_false_iff_ne.2 hk
        by_cases hk' : k = key
        · subst hk'
          simp [hne]
        · simp [Function.update_of_ne hk', List.lookup_cons, hne]

/-- A new pair is added at the end of a table with a header. -/
theorem addPair?_header {entries : List (String × Value)} {key : String}
    (h : entries.lookup key = none) (v : Value) :
    (Value.table .header entries).addPair? [] key v =
      some (.table .header (entries ++ [(key, v)])) := by
  simp [addPair?, update?, addKey?, h]

/-- The value of an array of tables with headers, the latest first; none if there is no table. -/
def ofTables : List Value → Option Value
  | [] => none
  | t :: ts => some (.tables (t :: ts))

theorem exists_openElement? {entries : List (String × Value)} {key : String} {ts : List Value}
    (h : entries.lookup key = ofTables ts) :
    ∃ entries', openElement? key (.table .header entries) = some (.table .header entries') ∧
      (entries'.lookup ·) = Function.update (entries.lookup ·) key
        (some (.tables (.table .header [] :: ts))) := by
  cases ts with
  | nil =>
    have hnone : entries.lookup key = none := h
    refine ⟨_, ?_, funext (lookup_append_single hnone _)⟩
    simp only [openElement?, hnone]
  | cons t ts =>
    have hsome : entries.lookup key = some (.tables (t :: ts)) := h
    refine ⟨_, ?_, funext (lookup_put entries key _)⟩
    simp only [openElement?, hsome]

theorem exists_update?_element {entries : List (String × Value)} {key : String}
    {fields : List (String × Value)} {ts : List Value}
    (h : entries.lookup key = some (.tables (.table .header fields :: ts))) {field : String}
    (hnew : fields.lookup field = none) (v : Value) :
    ∃ entries', update? false (·.addPair? [] field v) [key] (.table .header entries) =
        some (.table .header entries') ∧
      (entries'.lookup ·) = Function.update (entries.lookup ·) key
        (some (.tables (.table .header (fields ++ [(field, v)]) :: ts))) := by
  refine ⟨_, ?_, funext (lookup_put entries key _)⟩
  simp only [update?, h, enter?, addPair?_header hnew, Option.map_some]

end Value

namespace Document

open Value (lookup_append_single ofTables)

/-! ## Views of a document -/

/-- What is to be known of a document that is being read: the path to the table that pairs go to,
and the values of the whole table. -/
structure View where
  path : List String
  table : String → Option Value

/-- The view below a header: the table it has opened is the latest of an array and holds `fields`. -/
def View.latest (key : String) (table : String → Option Value) (ts : List Value)
    (fields : List (String × Value)) : View :=
  ⟨[key], Function.update table key (some (.tables (.table .header fields :: ts)))⟩

def State.Shows (s : State) (v : View) : Prop :=
  s.path = v.path ∧ ∃ entries, s.root = .table .header entries ∧ (entries.lookup ·) = v.table

/-- Reading the lines leads from one view to another. -/
def Leads (lines : List String) (v v' : View) : Prop :=
  ∀ s : State, s.Shows v → ∃ s', ReadsLines s lines s' ∧ s'.Shows v'

theorem Leads.nil (v : View) : Leads [] v v := fun s hs => ⟨s, .nil s, hs⟩

theorem Leads.append {lines lines' : List String} {v v' v'' : View} (h : Leads lines v v')
    (h' : Leads lines' v' v'') : Leads (lines ++ lines') v v'' := by
  intro s hs
  obtain ⟨s₁, hread₁, hs₁⟩ := h s hs
  obtain ⟨s₂, hread₂, hs₂⟩ := h' s₁ hs₁
  exact ⟨s₂, hread₁.append hread₂, hs₂⟩

theorem Leads.cons {line : String} {lines : List String} {v v' v'' : View}
    (h : Leads [line] v v') (h' : Leads lines v' v'') : Leads (line :: lines) v v'' := h.append h'

theorem leads_blank (v : View) : Leads [""] v v := fun s hs =>
  ⟨s, .cons (readsLine_nil s) (.nil s), hs⟩

variable {line key : String} {path : List String} {table : String → Option Value}

/-- A pair in front of all headers goes to the whole table. -/
theorem leads_pair (line key : String) (hkey : IsBare key.toList) {cs : List Char} {v : Value}
    (hv : Writes cs v) (hline : line.toList = key.toList ++ ' ' :: '=' :: ' ' :: cs)
    (hnew : table key = none) :
    Leads [line] ⟨[], table⟩ ⟨[], Function.update table key (some v)⟩ := by
  rintro ⟨root, _⟩ ⟨rfl, entries, rfl, rfl⟩
  refine ⟨⟨.table .header (entries ++ [(key, v)]), []⟩, .cons ?_ (.nil _), rfl, _, rfl,
    funext (lookup_append_single hnew v)⟩
  rw [hline]
  refine readsLine_pair hkey hv ?_
  rw [String.ofList_toList]
  exact Value.addPair?_header hnew v

theorem leads_element {ts : List Value} (hline : line = "[[" ++ (key ++ "]]"))
    (hkey : IsBare key.toList) (hts : table key = ofTables ts) :
    Leads [line] ⟨path, table⟩ (.latest key table ts []) := by
  rintro ⟨root, p⟩ ⟨-, entries, rfl, rfl⟩
  obtain ⟨entries', hopen, hlookup⟩ := Value.exists_openElement? hts
  refine ⟨⟨.table .header entries', [key]⟩, .cons ?_ (.nil _), rfl, entries', rfl, hlookup⟩
  have hread := readsLine_element (s := ⟨.table .header entries, p⟩) hkey
    (by rw [String.ofList_toList]; exact hopen)
  rw [String.ofList_toList] at hread
  rw [hline, String.toList_append, String.toList_append]
  exact hread

theorem leads_field (line field : String) (hfield : IsBare field.toList)
    {fields : List (String × Value)} {ts : List Value} {cs : List Char} {v : Value}
    (hv : Writes cs v) (hline : line.toList = field.toList ++ ' ' :: '=' :: ' ' :: cs)
    (hnew : fields.lookup field = none) :
    Leads [line] (.latest key table ts fields) (.latest key table ts (fields ++ [(field, v)])) := by
  rintro ⟨root, _⟩ ⟨rfl, entries, rfl, htable⟩
  have hlookup : entries.lookup key = some (.tables (.table .header fields :: ts)) :=
    (congrFun htable key).trans (Function.update_self ..)
  obtain ⟨entries', hroot, hlookup'⟩ := Value.exists_update?_element hlookup hnew v
  refine ⟨⟨.table .header entries', [key]⟩, .cons ?_ (.nil _), rfl, entries', rfl, ?_⟩
  · rw [hline]
    refine readsLine_pair hfield hv ?_
    rw [String.ofList_toList]
    exact hroot
  · rw [hlookup', htable]
    exact Function.update_idem ..

theorem leads_blocks {α : Type} {block : α → List String} {fields : α → List (String × Value)}
    (hblock : ∀ x path table ts, table key = ofTables ts →
      Leads (block x) ⟨path, table⟩ (.latest key table ts (fields x)))
    (xs : List α) :
    ∀ path table ts, table key = ofTables ts →
      ∃ path', Leads (xs.flatMap block) ⟨path, table⟩
        ⟨path', Function.update table key
          (ofTables ((xs.map fun x => .table .header (fields x)).reverse ++ ts))⟩ := by
  induction xs with
  | nil =>
    intro path table ts hts
    refine ⟨path, ?_⟩
    rw [List.map_nil, List.reverse_nil, List.nil_append, ← hts, Function.update_eq_self]
    exact .nil _
  | cons x xs ih =>
    intro path table ts hts
    -- The other blocks find the table of the first among those at the key.
    obtain ⟨path', hrest⟩ := ih [key] _ (.table .header (fields x) :: ts)
      (Function.update_self key (some (.tables (.table .header (fields x) :: ts))) table)
    rw [Function.update_idem] at hrest
    refine ⟨path', ?_⟩
    rw [List.flatMap_cons, List.map_cons, List.reverse_cons, List.append_assoc]
    exact (hblock x path table ts hts).append hrest

end Document

end Bytebeat.Toml
