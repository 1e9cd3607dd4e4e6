import AccessPolicy.Proofs.Program.Decoding

/-!
# What decoding passes over

A document that decodes may hold more than the document of its program : fields of nodes that nodes
of their type do not have, and any line of the root. With these taken out and put right the two are
the same, and a document with other such fields decodes just alike, or fails just alike
(`Program.decode_exact`). Decoders see the gist of a document and nothing else
(`Program.decode_gist`).
-/

namespace AccessPolicy

open DecodeError (Path)

namespace Document

variable {path : Path} {d : Document} {key : String}

/-! ## Fields of the gist -/

/-- What is wrong with a document that has nothing under a key. -/
def absence (key : String) : Document → DecodeError.Cause
  | object _ => .missingField key
  | _ => .notAnObject

theorem child_of_get?_none (h : d.get? key = none) :
    d.child path key = .error ⟨path, d.absence key⟩ := by
  have hattach : (d.get? key).attach = none := Option.attach_eq_none_iff.mpr h
  unfold child
  rw [hattach]
  cases d <;> rfl

/-- Two documents with corresponding parts are read alike from there on. -/
theorem child_bind {β : Type} {e : Document} {φ : Document → Document}
    {f : { c : Document // e.get? key = some c } → _}
    {g : { c : Document // d.get? key = some c } → Except DecodeError β}
    (habsence : e.absence key = d.absence key) (hget : e.get? key = (d.get? key).map φ)
    (hfg : ∀ c hc hc', f ⟨φ c, hc'⟩ = g ⟨c, hc⟩) :
    (e.child path key >>= f) = (d.child path key >>= g) := by
  obtain hnone | ⟨c, hc⟩ := (d.get? key).eq_none_or_eq_some
  · rw [hnone] at hget
    rw [child_of_get?_none hnone, child_of_get?_none hget, habsence]
    rfl
  · rw [hc] at hget
    rw [child_of_get? hc, child_of_get? hget]
    exact hfg c hc hget

theorem gist_object (fields : List (String × Document)) :
    ∃ entries, (object fields).gist = object entries :=
  ⟨_, by rw [gist, pruned, canonical]⟩

theorem absence_gist (d : Document) : d.gist.absence key = d.absence key := by
  cases d with
  | object fields =>
    obtain ⟨entries, hgist⟩ := gist_object fields
    rw [hgist]
    rfl
  | list items => rw [gist_list]; rfl
  | _ => rfl

/-- A part is found in the gist as it is found in the document, but for what is not seen of it. -/
theorem child_gist_bind {β : Type} {f : { c : Document // d.gist.get? key = some c } → _}
    {g : { c : Document // d.get? key = some c } → Except DecodeError β}
    (hget : d.gist.get? key = (d.get? key).map gist)
    (hfg : ∀ c hc hc', f ⟨c.gist, hc'⟩ = g ⟨c, hc⟩) :
    (d.gist.child path key >>= f) = (d.child path key >>= g) :=
  child_bind d.absence_gist hget hfg

theorem stringField_gist (hget : d.gist.get? key = (d.get? key).map gist) :
    d.gist.stringField path key = d.stringField path key := by
  refine child_gist_bind hget fun c _ _ => ?_
  cases c with
  | object fields =>
    obtain ⟨entries, hgist⟩ := gist_object fields
    simp only [hgist]
  | list items => simp only [gist_list]
  | _ => rfl

theorem intField_gist (hget : d.gist.get? key = (d.get? key).map gist) (low high : Int) :
    d.gist.intField path key low high = d.intField path key low high := by
  refine child_gist_bind hget fun c _ _ => ?_
  cases c with
  | object fields =>
    obtain ⟨entries, hgist⟩ := gist_object fields
    simp only [hgist]
  | list items => simp only [gist_list]
  | _ => rfl

theorem listField_gist (hget : d.gist.get? key = (d.get? key).map gist) :
    d.gist.listField path key = List.map gist <$> d.listField path key := by
  rw [listField, listField, map_bind]
  refine child_gist_bind hget fun c _ _ => ?_
  cases c with
  | object fields =>
    obtain ⟨entries, hgist⟩ := gist_object fields
    simp only [hgist]
    rfl
  | list items => simp only [gist_list]; rfl
  | _ => rfl

theorem lineField_gist (d : Document) : d.gist.lineField path = d.lineField path := by
  rw [lineField, lineField, intField_gist (get?_gist NodeType.line_mem_keys d)]

theorem typeField_gist (d : Document) :
    d.gist.stringField path "type" = d.stringField path "type" :=
  stringField_gist (get?_gist NodeType.type_mem_keys d)

theorem operatorField_gist {α : Type} (hget : d.gist.get? "operator" = (d.get? "operator").map gist)
    (ofSymbol? : String → Option α) :
    d.gist.operatorField path ofSymbol? = d.operatorField path ofSymbol? := by
  rw [operatorField, operatorField, stringField_gist hget]

theorem get?_of_stringField_eq_ok {s : String} (h : d.stringField path key = .ok s) :
    d.get? key = some (string s) := by
  rw [stringField] at h
  cases hchild : d.child path key with
  | error e =>
    rw [hchild] at h
    cases h
  | ok c =>
    obtain ⟨c, hc⟩ := c
    rw [hchild] at h
    rw [hc]
    cases c <;> cases h
    rfl

theorem nodeType?_of_stringField_eq_ok {s : String} (h : d.stringField path "type" = .ok s) :
    d.nodeType? = NodeType.ofName? s :=
  nodeType?_of_get? (get?_of_stringField_eq_ok h)

/-- The object with a field put last, where it goes before any other with its key. -/
def setField (d : Document) (key : String) (value : Document) : Document :=
  match d with
  | object fields => object (fields ++ [(key, value)])
  | d => d

end Document

open Document

theorem bind_congr_ok {ε α β : Type} {x : Except ε α} {f g : α → Except ε β}
    (h : ∀ a, x = .ok a → f a = g a) : (x >>= f) = (x >>= g) := by
  cases x with
  | error e => rfl
  | ok a => exact h a rfl

/-! ## Decoders see the gist only -/

variable {path : Path} {d : Document}

theorem Literal.decode_gist (path : Path) (d : Document) : decode path d.gist = decode path d := by
  rw [decode, decode, lineField_gist, typeField_gist]
  refine bind_congr fun line => bind_congr_ok fun type htype => ?_
  have hnode := nodeType?_of_stringField_eq_ok htype
  split
  case h_1 ht | h_3 ht =>
    rw [stringField_gist (get?_gist_of_type (hnode.trans ht) (by decide))]
  case h_2 ht => rw [intField_gist (get?_gist_of_type (hnode.trans ht) (by decide))]
  case h_4 => rfl
  case h_5 => rfl

theorem ActionSet.decode_gist (path : Path)
    (hget : d.gist.get? "actions" = (d.get? "actions").map gist) :
    decode path d.gist = decode path d := by
  rw [decode, decode, listField_gist hget, bind_map_left]
  refine bind_congr fun items => ?_
  rw [List.zipIdx_map, List.mapM_map]
  simp only [Function.comp_def, Prod.map, id, Literal.decode_gist]

theorem Expr.decode_gist (path : Path) (d : Document) : decode path d.gist = decode path d := by
  rw [decode, decode, lineField_gist, typeField_gist]
  refine bind_congr fun line => bind_congr_ok fun type htype => ?_
  have hnode := nodeType?_of_stringField_eq_ok htype
  split
  case h_1 ht =>
    have hget : ∀ key ∈ NodeType.binary.keys, d.gist.get? key = (d.get? key).map gist :=
      fun key => get?_gist_of_type (hnode.trans ht)
    rw [operatorField_gist (hget _ (by decide))]
    refine bind_congr fun op => child_gist_bind (hget _ (by decide)) fun l hl _ => ?_
    dsimp only
    rw [Expr.decode_gist _ l]
    refine bind_congr fun left => child_gist_bind (hget _ (by decide)) fun r hr _ => ?_
    dsimp only
    rw [Expr.decode_gist _ r]
  case h_2 ht =>
    have hget : ∀ key ∈ NodeType.unary.keys, d.gist.get? key = (d.get? key).map gist :=
      fun key => get?_gist_of_type (hnode.trans ht)
    rw [operatorField_gist (hget _ (by decide))]
    refine bind_congr fun sign => child_gist_bind (hget _ (by decide)) fun o ho _ => ?_
    dsimp only
    rw [Expr.decode_gist _ o]
  case h_3 ht =>
    rw [stringField_gist (get?_gist_of_type (hnode.trans ht) (by decide)),
      stringField_gist (get?_gist_of_type (hnode.trans ht) (by decide))]
  case h_4 => rw [Literal.decode_gist]
termination_by sizeOf d
decreasing_by all_goals exact Document.sizeOf_get?_lt ‹_›

theorem Condition.decode_gist (path : Path) (d : Document) :
    decode path d.gist = decode path d := by
  rw [decode, decode, lineField_gist, typeField_gist]
  refine bind_congr fun line => bind_congr_ok fun type htype => ?_
  have hnode := nodeType?_of_stringField_eq_ok htype
  split
  case h_1 ht | h_2 ht =>
    refine child_gist_bind (get?_gist_of_type (hnode.trans ht) (by decide)) fun l hl _ => ?_
    dsimp only
    rw [Condition.decode_gist _ l]
    refine bind_congr fun left =>
      child_gist_bind (get?_gist_of_type (hnode.trans ht) (by decide)) fun r hr _ => ?_
    dsimp only
    rw [Condition.decode_gist _ r]
  case h_3 ht =>
    have hget : ∀ key ∈ NodeType.comparison.keys, d.gist.get? key = (d.get? key).map gist :=
      fun key => get?_gist_of_type (hnode.trans ht)
    rw [operatorField_gist (hget _ (by decide))]
    refine bind_congr fun relation => child_gist_bind (hget _ (by decide)) fun l hl _ => ?_
    dsimp only
    rw [Expr.decode_gist _ l]
    refine bind_congr fun left => child_gist_bind (hget _ (by decide)) fun r hr _ => ?_
    dsimp only
    rw [Expr.decode_gist _ r]
  case h_4 => rfl
termination_by sizeOf d
decreasing_by all_goals exact Document.sizeOf_get?_lt ‹_›

theorem Policy.decode_gist (path : Path) (line : Nat)
    (hget : ∀ key ∈ NodeType.policy.keys, d.gist.get? key = (d.get? key).map gist) :
    decode path d.gist line = decode path d line := by
  rw [decode, decode, stringField_gist (hget _ (by decide))]
  refine bind_congr fun keyword => child_gist_bind (hget _ (by decide)) fun c hc _ => ?_
  rw [ActionSet.decode_gist path (hget _ (by decide)), stringField_gist (hget _ (by decide))]
  have hcondition := Condition.decode_gist (path ++ [.condition]) c
  cases c with
  | object fields =>
    obtain ⟨entries, hgist⟩ := gist_object fields
    rw [hgist] at hcondition
    simp only [hgist, hcondition]
  | list items =>
    rw [gist_list] at hcondition
    simp only [gist_list, hcondition]
  | _ => rfl

theorem Declaration.decode_gist (path : Path) (d : Document) :
    decode path d.gist = decode path d := by
  rw [decode, decode, lineField_gist, typeField_gist]
  refine bind_congr fun line => bind_congr_ok fun type htype => ?_
  have hnode := nodeType?_of_stringField_eq_ok htype
  split
  case h_1 ht =>
    rw [stringField_gist (get?_gist_of_type (hnode.trans ht) (by decide)),
      ActionSet.decode_gist path (get?_gist_of_type (hnode.trans ht) (by decide))]
  case h_2 ht | h_3 ht =>
    rw [stringField_gist (get?_gist_of_type (hnode.trans ht) (by decide)),
      stringField_gist (get?_gist_of_type (hnode.trans ht) (by decide))]
  case h_4 ht => rw [Policy.decode_gist path line fun _ => get?_gist_of_type (hnode.trans ht)]
  case h_5 => rfl

namespace Program

/-- A document decodes as its gist does, or fails as its gist does. -/
theorem decode_gist (v : Document) : decode v.gist = decode v := by
  rw [decode, decode, typeField_gist]
  refine bind_congr_ok fun type htype => ?_
  have hnode := nodeType?_of_stringField_eq_ok htype
  split
  · next ht =>
    rw [listField_gist (get?_gist_of_type (hnode.trans ht) (by decide)), bind_map_left]
    refine bind_congr fun items => ?_
    rw [List.zipIdx_map, List.mapM_map]
    simp only [Function.comp_def, Prod.map, id, Declaration.decode_gist]
  · rfl

variable {fields gields : List (String × Document)}

theorem stringField_object_congr {key : String}
    (h : lastField? key fields = lastField? key gields) :
    (object fields).stringField path key = (object gields).stringField path key := by
  have hget : (object fields).get? key = ((object gields).get? key).map id := by
    simpa [get?] using h
  exact child_bind rfl hget fun _ _ _ => rfl

theorem listField_object_congr {key : String}
    (h : lastField? key fields = lastField? key gields) :
    (object fields).listField path key = (object gields).listField path key := by
  have hget : (object fields).get? key = ((object gields).get? key).map id := by
    simpa [get?] using h
  exact child_bind rfl hget fun _ _ _ => rfl

/-- Whatever the line of the root is, the document decodes alike. -/
theorem decode_of_sameBut_line (h : SameBut "line" fields gields) :
    decode (object gields) = decode (object fields) := by
  rw [decode, decode, stringField_object_congr (h "type" (by decide)),
    listField_object_congr (h "declarations" (by decide))]

/-- A document that decodes is that of its program, but for the fields that nodes do not have and
for the line of the root. -/
theorem encode_of_decode_eq_ok {v : Document} {p : Program} (h : decode v = .ok p) :
    p.encode = (v.pruned.setField "line" (.int p.line)).canonical := by
  obtain ⟨htype, hdeclarations, -⟩ := (yields_decode v).of_eq_ok h
  have hnode : v.nodeType? = some .program := nodeType?_of_get? htype
  obtain ⟨fields, rfl⟩ := exists_fields_of_nodeType? hnode
  rw [pruned, hnode, setField, encode]
  have hlast : ∀ key, (lastField? key (prunedFields (keeps (some .program)) fields)).map canonical =
      if key ∈ NodeType.program.keys then ((object fields).get? key).map gist else none := by
    intro key
    simp only [lastField?_prunedFields, keeps, Option.all_some, List.contains_iff_mem]
    split
    · rw [Option.map_map]
      rfl
    · rfl
  symm
  refine canonical_object_eq (List.pairwise_map.mp NodeType.program.sorted_keys) fun key => ?_
  rw [lastField?_append, Option.map_or, hlast]
  by_cases hline : key = "line"
  · simp [hline, lastField?, canonical, lookup_cons_entry]
  · by_cases hd : key = "declarations"
    · simp [hd, lastField?, NodeType.keys, hdeclarations]
    · by_cases ht : key = "type"
      · simp [ht, lastField?, NodeType.keys, lookup_cons_entry, htype]
      · simp [hd, hline, ht, lastField?, NodeType.keys, lookup_cons_entry, Ne.symm hline]

/-- Encoding undoes decoding up to what nodes do not have and the line of the root, and what nodes
do not have and the line of the root make no difference to decoding, whether it fails or not. -/
theorem decode_exact (v : Document) :
    (∀ p, decode v = .ok p → p.line = (p.declarations.head?.map Declaration.line).getD 0 ∧
      p.encode = (v.pruned.setField "line" (.int p.line)).canonical) ∧
    (∀ w, v.Edited w → decode w = decode v) ∧
    (∀ fields gields, v = .object fields → SameBut "line" fields gields →
      decode (.object gields) = decode v) := by
  refine ⟨fun p h => ⟨?_, encode_of_decode_eq_ok h⟩, fun w h => ?_, fun fields gields hv h => ?_⟩
  · exact ((yields_decode v).of_eq_ok h).2.2.1
  · rw [← decode_gist w, ← h.gist_eq, decode_gist]
  · rw [hv, decode_of_sameBut_line h]

/-- A program with a comment in its only declaration, on the line after the one it says. -/
def annotated (comment : Document) : Document :=
  .object [("type", .string "Program"), ("line", .int 7), ("declarations", .list [.object [
    ("type", .string "UserDef"), ("comment", comment), ("role", .string "Admin"),
    ("name", .string "Bob"), ("line", .int 8)]])]

theorem decode_annotated :
    decode (annotated .null) = .ok ⟨[.user ⟨"Bob", "Admin", 8⟩], 8⟩ ∧
    Program.encode ⟨[.user ⟨"Bob", "Admin", 8⟩], 8⟩ =
      ((annotated .null).pruned.setField "line" (.int 8)).canonical ∧
    decode (annotated (.int 1)) = decode (annotated .null) ∧
    decode (.object [("declarations", .list []), ("type", .string "Program")]) =
      decode (.object [("line", .bool true), ("declarations", .list []),
        ("type", .string "Program")]) := by
  have h : decode (annotated .null) = .ok ⟨[.user ⟨"Bob", "Admin", 8⟩], 8⟩ := by
    decide +kernel
  have hcomment : ∀ c, SameBut "comment"
      [("type", .string "UserDef"), ("comment", .null), ("role", .string "Admin"),
        ("name", .string "Bob"), ("line", .int 8)]
      [("type", .string "UserDef"), ("comment", c), ("role", .string "Admin"),
        ("name", .string "Bob"), ("line", .int 8)] := fun c k hk => by
    simp [lastField?, Ne.symm hk]
  have hedited : (annotated .null).Edited (annotated (.int 1)) :=
    .field [("type", .string "Program"), ("line", .int 7)] [] "declarations"
      (.item [] [] (.here (t := .user) rfl (by decide) (hcomment _)))
  exact ⟨h, ((decode_exact _).1 _ h).2, (decode_exact _).2.1 _ hedited,
    (decode_exact _).2.2 _ _ rfl fun k hk => by simp [lastField?, Ne.symm hk]⟩

end Program

end AccessPolicy
