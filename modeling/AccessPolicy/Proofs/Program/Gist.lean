import AccessPolicy.Program.Encode
import AccessPolicy.Proofs.Document.Canonical

/-!
# The gist of a document

An encoded node has the keys of its type and no others (`NodeType.keys`). A document may hold more :
`Document.pruned` takes out of every object whose type is that of a node what is under other keys,
and `Document.gist` is what is left, in canonical form. Documents that differ only in what is taken
out have the same gist (`Document.Edited.gist_eq`).
-/

namespace AccessPolicy

/-! ## Keys of nodes -/

/-- The keys that an encoded node of a type has, in order. -/
def NodeType.keys : NodeType → List String
  | program => ["declarations", "line", "type"]
  | role => ["actions", "line", "name", "type"]
  | user => ["line", "name", "role", "type"]
  | resource => ["line", "name", "path", "type"]
  | policy => ["actions", "condition", "effect", "line", "resource", "type"]
  | and | or => ["left", "line", "right", "type"]
  | comparison | binary => ["left", "line", "operator", "right", "type"]
  | unary => ["line", "operand", "operator", "type"]
  | access => ["attribute", "line", "object", "type"]
  | identifier | number | string => ["line", "type", "value"]
  | wildcard => ["line", "type"]

theorem NodeType.sorted_keys (t : NodeType) : t.keys.Pairwise (· < ·) := by
  cases t <;> decide

theorem NodeType.line_mem_keys (t : NodeType) : "line" ∈ t.keys := by
  cases t <;> decide

theorem NodeType.type_mem_keys (t : NodeType) : "type" ∈ t.keys := by
  cases t <;> decide

namespace Document

/-- The type of the node that an object encodes, if it is the object of a node. -/
def nodeType? (d : Document) : Option NodeType :=
  match d.get? "type" with
  | some (string s) => NodeType.ofName? s
  | _ => none

/-- The keys of a document, if it is an object. -/
def keys : Document → List String
  | object fields => fields.map Prod.fst
  | _ => []

end Document

/-- The object of a node has the keys of its type. -/
theorem Literal.keys_encode (l : Literal) : l.encode.keys = l.type.keys := by
  cases l <;> rfl

theorem Expr.keys_encode (e : Expr) : e.encode.keys = e.type.keys := by
  cases e with
  | literal l => exact l.keys_encode
  | _ => rfl

theorem Condition.keys_encode (c : Condition) : c.encode.keys = c.type.keys := by
  cases c <;> rfl

theorem Declaration.keys_encode (d : Declaration) :
    d.encode.keys = (Node.ofDeclaration d).type.keys := by
  cases d <;> rfl

theorem Program.keys_encode (p : Program) : p.encode.keys = (Node.program p).type.keys := rfl

namespace Document

/-! ## Pruning -/

/-- Whether an object keeps what is under a key. Objects that are no nodes keep everything. -/
def keeps (type? : Option NodeType) (key : String) : Bool :=
  type?.all (·.keys.contains key)

mutual

/-- The document without what the objects of nodes hold under other keys than those of their
types. -/
def pruned : Document → Document
  | list items => list (prunedItems items)
  | object fields => object (prunedFields (keeps (object fields).nodeType?) fields)
  | d => d

/-- Items without what nodes have no keys for. -/
def prunedItems : List Document → List Document
  | [] => []
  | d :: ds => d.pruned :: prunedItems ds

/-- The fields that are kept, without what nodes have no keys for. -/
def prunedFields (keep : String → Bool) : List (String × Document) → List (String × Document)
  | [] => []
  | (key, d) :: fs =>
    if keep key then (key, d.pruned) :: prunedFields keep fs else prunedFields keep fs

end

/-- What is left of a document after pruning, in canonical form. -/
def gist (d : Document) : Document :=
  d.pruned.canonical

@[simp] theorem gist_null : null.gist = null := rfl

@[simp] theorem gist_bool (b : Bool) : (bool b).gist = bool b := rfl

@[simp] theorem gist_int (n : Int) : (int n).gist = int n := rfl

@[simp] theorem gist_decimal (s : String) : (decimal s).gist = decimal s := rfl

@[simp] theorem gist_string (s : String) : (string s).gist = string s := rfl

theorem prunedItems_eq_map (ds : List Document) : prunedItems ds = ds.map pruned := by
  induction ds with
  | nil => rfl
  | cons d ds ih => rw [prunedItems, ih, List.map_cons]

@[simp] theorem gist_list (items : List Document) : (list items).gist = list (items.map gist) := by
  rw [gist, pruned, canonical, canonicalItems_eq_map, prunedItems_eq_map, List.map_map]
  rfl

theorem lastField?_prunedFields (keep : String → Bool) (key : String)
    (fs : List (String × Document)) :
    lastField? key (prunedFields keep fs) =
      if keep key then (lastField? key fs).map pruned else none := by
  induction fs with
  | nil => simp [prunedFields, lastField?]
  | cons f fs ih =>
    obtain ⟨k, d⟩ := f
    rw [prunedFields]
    by_cases hk : k = key
    · subst hk
      by_cases hkeep : keep k = true
      · rw [if_pos hkeep, lastField?, ih, if_pos hkeep, lastField?]
        cases lastField? k fs <;> simp [hkeep]
      · rw [if_neg hkeep, ih, if_neg hkeep, if_neg hkeep]
    · have hskip : ∀ c gs, lastField? key ((k, c) :: gs) = lastField? key gs := fun c gs => by
        rw [lastField?, if_neg hk, Option.or_none]
      rw [hskip]
      split
      · rw [hskip, ih]
      · exact ih

variable {d : Document} {fields gields : List (String × Document)} {t : NodeType} {key : String}

/-! ## What the gist has under a key -/

theorem get?_gist_object (fields : List (String × Document)) (key : String) :
    (object fields).gist.get? key =
      if keeps (object fields).nodeType? key then (lastField? key fields).map gist else none := by
  rw [gist, pruned, canonical, get?, lastField?_canonicalFields, lastField?_prunedFields]
  split
  · rw [Option.map_map]
    rfl
  · rfl

/-- The gist of an object is known from what it keeps. -/
theorem gist_object_eq {entries : List (String × Document)}
    (hsorted : entries.Pairwise fun e f => e.1 < f.1)
    (h : ∀ key, (if keeps (object fields).nodeType? key then (lastField? key fields).map gist
      else none) = entries.lookup key) :
    (object fields).gist = object entries := by
  rw [gist, pruned]
  refine canonical_object_eq hsorted fun key => ?_
  rw [← h key, lastField?_prunedFields]
  split
  · rw [Option.map_map]
    rfl
  · rfl

theorem gist_congr (htype : (object fields).nodeType? = (object gields).nodeType?)
    (h : ∀ key, keeps (object fields).nodeType? key = true →
      (lastField? key fields).map gist = (lastField? key gields).map gist) :
    (object fields).gist = (object gields).gist := by
  have hentries : ∃ entries, (object gields).gist = object entries ∧
      entries.Pairwise (fun e f => e.1 < f.1) := by
    exact ⟨_, by rw [gist, pruned, canonical], sorted_canonicalFields .nil⟩
  obtain ⟨entries, hgist, hsorted⟩ := hentries
  rw [hgist]
  refine gist_object_eq hsorted fun key => ?_
  have hlookup : entries.lookup key = (object gields).gist.get? key := by
    rw [hgist, get?, lastField?_eq_lookup hsorted]
  rw [hlookup, get?_gist_object, htype]
  split
  · next hkeep => exact h key (htype ▸ hkeep)
  · rfl

theorem exists_fields_of_nodeType? (h : d.nodeType? = some t) :
    ∃ fields, d = object fields := by
  cases d with
  | object fields => exact ⟨fields, rfl⟩
  | _ => simp [nodeType?, get?] at h

theorem get?_gist_of_type (h : d.nodeType? = some t) (hkey : key ∈ t.keys) :
    d.gist.get? key = (d.get? key).map gist := by
  obtain ⟨fields, rfl⟩ := exists_fields_of_nodeType? h
  rw [get?_gist_object, if_pos (by simpa [keeps, h] using hkey), get?]

/-- Lines and types are kept by nodes and by other objects. -/
theorem get?_gist (hkey : ∀ t : NodeType, key ∈ t.keys) (d : Document) :
    d.gist.get? key = (d.get? key).map gist := by
  cases d with
  | object fields =>
    have hkeep : keeps (object fields).nodeType? key = true := by
      cases (object fields).nodeType? with
      | none => rfl
      | some t => simpa [keeps] using hkey t
    rw [get?_gist_object, if_pos hkeep, get?]
  | list items => rw [gist_list]; rfl
  | _ => rfl

theorem lookup_filterMap_keys {α : Type} (keys : List String) (f : String → Option α)
    (key : String) : (keys.filterMap fun k => (f k).map fun a => (k, a)).lookup key =
      if key ∈ keys then f key else none := by
  induction keys with
  | nil => rfl
  | cons k keys ih =>
    by_cases hk : key = k
    · subst hk
      cases hf : f key with
      | none => simp [hf, ih]
      | some a => simp [hf]
    · cases hf : f k with
      | none => simp [hf, ih, hk]
      | some a => simp [hf, ih, hk, lookup_cons_entry]

/-- The gist of a node has the keys of its type, as far as the node has them. -/
theorem gist_of_type (h : d.nodeType? = some t) :
    d.gist = object (t.keys.filterMap fun key => (d.get? key).map fun c => (key, c.gist)) := by
  obtain ⟨fields, rfl⟩ := exists_fields_of_nodeType? h
  refine gist_object_eq ?_ fun key => ?_
  · refine List.Pairwise.filterMap _ (fun k l hkl e he f hf => ?_) t.sorted_keys
    obtain ⟨c, -, rfl⟩ := Option.map_eq_some_iff.mp he
    obtain ⟨c', -, rfl⟩ := Option.map_eq_some_iff.mp hf
    exact hkl
  · have hlookup :=
      lookup_filterMap_keys t.keys (fun key => ((object fields).get? key).map gist) key
    simp only [Option.map_map, Function.comp_def] at hlookup
    rw [hlookup]
    simp [keeps, h, get?]

/-! ## Edits that do not matter -/

/-- The objects have the same under every key but one. -/
def SameBut (key : String) (fields gields : List (String × Document)) : Prop :=
  ∀ k ≠ key, lastField? k fields = lastField? k gields

/-- The second document is the first one but for one object of a node, in which something was added,
changed or removed under a key that nodes of its type do not have. -/
inductive Edited : Document → Document → Prop
  | here {fields gields : List (String × Document)} {t : NodeType} {key : String}
    (htype : (object fields).nodeType? = some t) (hkey : key ∉ t.keys)
    (h : SameBut key fields gields) : Edited (object fields) (object gields)
  | item (before after : List Document) {d e : Document} (h : Edited d e) :
    Edited (list (before ++ d :: after)) (list (before ++ e :: after))
  | field (before after : List (String × Document)) (key : String) {d e : Document}
    (h : Edited d e) :
    Edited (object (before ++ (key, d) :: after)) (object (before ++ (key, e) :: after))

theorem gist_eq_string_iff {s : String} : d.gist = string s ↔ d = string s := by
  cases d with
  | list items => simp
  | object fields => simp [gist, pruned, canonical]
  | _ => simp

theorem nodeType?_congr
    (h : (lastField? "type" fields).map gist = (lastField? "type" gields).map gist) :
    (object fields).nodeType? = (object gields).nodeType? := by
  have hstring : ∀ s, lastField? "type" fields = some (string s) ↔
      lastField? "type" gields = some (string s) := by
    have hmap : ∀ (fs : List (String × Document)) (s : String),
        (lastField? "type" fs).map gist = some (string s) ↔
          lastField? "type" fs = some (string s) := by
      simp [Option.map_eq_some_iff, gist_eq_string_iff]
    exact fun s => by rw [← hmap, h, hmap]
  have htype : ∀ (fs : List (String × Document)) (t : NodeType),
      (object fs).nodeType? = some t ↔
        ∃ s, lastField? "type" fs = some (string s) ∧ NodeType.ofName? s = some t := by
    intro fs t
    unfold nodeType?
    rw [get?]
    split
    · next s hs => simp [hs]
    · next hother => simpa using fun s hs => absurd hs (hother s)
  exact Option.ext fun t => by simp only [htype, hstring]

theorem lastField?_append (key : String) (fs gs : List (String × Document)) :
    lastField? key (fs ++ gs) = (lastField? key gs).or (lastField? key fs) := by
  induction fs with
  | nil => simp [lastField?]
  | cons f fs ih => rw [List.cons_append, lastField?, ih, lastField?, Option.or_assoc]

theorem Edited.gist_eq {d e : Document} (h : d.Edited e) : d.gist = e.gist := by
  induction h with
  | @here fields gields t key htype hkey hsame =>
    have hother : ∀ k ∈ t.keys, lastField? k fields = lastField? k gields :=
      fun k hk => hsame k fun heq => hkey (heq ▸ hk)
    have hgields : (object fields).nodeType? = (object gields).nodeType? :=
      nodeType?_congr (by rw [hother _ t.type_mem_keys])
    refine gist_congr hgields fun k hk => ?_
    rw [htype] at hk
    rw [hother k (by simpa [keeps] using hk)]
  | item before after _ ih => simp [ih]
  | @field before after key d e _ ih =>
    have hfield : ∀ k, (lastField? k (before ++ (key, d) :: after)).map gist =
        (lastField? k (before ++ (key, e) :: after)).map gist := fun k => by
      simp only [lastField?_append, lastField?, Option.map_or]
      split <;> simp [ih]
    exact gist_congr (nodeType?_congr (hfield "type")) fun k _ => hfield k

end Document

end AccessPolicy
