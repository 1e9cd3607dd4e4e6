import AccessPolicy.Document.Yaml.Reader
import AccessPolicy.Proofs.Document.Yaml.Tokens
import Mathlib.Data.List.Flatten

/-!
# The tree of a written document

The tokens of a document are read as the tree of the document if it is not nested too deep
(`Yaml.ofTokens?_nodeTokens`), and the tree means the document (`Yaml.ofTree?_tree`). Behind a key
the items of a list are known to end because the next token is no item.
-/

namespace AccessPolicy.Yaml

mutual

/-- The tree of a document. -/
def tree : Document → Tree
  | .list ds => .sequence ⟨none, none⟩ (itemTrees ds)
  | .object fs => .mapping ⟨none, none⟩ (fieldTrees fs)
  | d => .scalar ⟨none, none⟩ (scalarStyle d) (scalarText d)

/-- The trees of items. -/
def itemTrees : List Document → List Tree
  | [] => []
  | d :: ds => tree d :: itemTrees ds

/-- The trees of fields. -/
def fieldTrees : List (String × Document) → List (Tree × Tree)
  | [] => []
  | (k, d) :: fs => (.scalar ⟨none, none⟩ .plain k, tree d) :: fieldTrees fs

end

variable {d : Document} {ds : List Document} {f : String × Document}
  {fs : List (String × Document)} {text : List Char}

theorem tree_of_isScalar (h : isScalar d = true) :
    tree d = .scalar ⟨none, none⟩ (scalarStyle d) (scalarText d) := by
  cases d with
  | list | object => exact nomatch h
  | _ => rfl

/-! ## Where nodes start -/

/-- The tokens before which a node in a block is left out. -/
def stops : List Token :=
  [.item, .key, .value, .blockEnd]

theorem exists_head?_nodeTokens (d : Document) :
    ∃ t, (nodeTokens d).head? = some t ∧ t ∉ stops := by
  cases d with
  | list ds => cases ds <;> exact ⟨_, rfl, by decide⟩
  | object fs => cases fs <;> exact ⟨_, rfl, by decide⟩
  | _ => exact ⟨_, rfl, by simp [stops, scalarToken]⟩

theorem exists_head?_valueTokens (d : Document) :
    ∃ t, (valueTokens d).head? = some t ∧ t ∉ stops.erase .item := by
  unfold valueTokens
  split
  · exact ⟨.item, rfl, by decide⟩
  · obtain ⟨t, hhead, ht⟩ := exists_head?_nodeTokens d
    exact ⟨t, hhead, fun hmem => ht (List.mem_of_mem_erase hmem)⟩

section Collections

variable {node : Tree.NodeReader} {setting : Tree.Setting} {bound : Nat}
  {ts left rest : List Token} {t : Token}

/-- A node that does not start with a token before which it is left out is read. -/
theorem nodeUnless_eq (h : ts.head? = some t) (ht : t ∉ left) :
    Tree.nodeUnless node setting left ⟨ts ++ rest, []⟩ = node setting ⟨ts ++ rest, []⟩ := by
  simp [Tree.nodeUnless, List.head?_append, h, ht]

/-! ## Collections -/

/-- Tokens of the document are read as the tree of the document in front of any `rest` that starts
with no item. -/
def Reads (node : Tree.NodeReader) (setting : Tree.Setting) (ts : List Token) (d : Document) :
    Prop :=
  ∀ rest : List Token, (setting = .field → rest.head? ≠ some .item) →
    node setting ⟨ts ++ rest, []⟩ = some (tree d, ⟨rest, []⟩)

theorem itemTokens_cons_append :
    itemTokens (d :: ds) ++ rest = .item :: (nodeTokens d ++ (itemTokens ds ++ rest)) := by
  simp [itemTokens]

theorem nodeUnless_item (h : Reads node .item (nodeTokens d) d) (hleft : left ⊆ stops) :
    Tree.nodeUnless node .item left ⟨nodeTokens d ++ rest, []⟩ = some (tree d, ⟨rest, []⟩) := by
  obtain ⟨t, hhead, ht⟩ := exists_head?_nodeTokens d
  rw [nodeUnless_eq hhead fun hmem => ht (hleft hmem), h rest nofun]

theorem blockItems?_itemTokens (h : ∀ d ∈ ds, Reads node .item (nodeTokens d) d)
    (hbound : ds.length < bound) :
    Tree.blockItems? node bound ⟨itemTokens ds ++ .blockEnd :: rest, []⟩ =
      some (itemTrees ds, ⟨rest, []⟩) := by
  induction ds generalizing bound with
  | nil =>
    obtain ⟨bound, rfl⟩ := Nat.exists_eq_add_one_of_ne_zero (Nat.ne_zero_of_lt hbound)
    rfl
  | cons d ds ih =>
    obtain ⟨bound, rfl⟩ := Nat.exists_eq_add_one_of_ne_zero (Nat.ne_zero_of_lt hbound)
    obtain ⟨hd, hds⟩ := List.forall_mem_cons.mp h
    have hleft : [Token.item, .blockEnd] ⊆ stops := by decide
    rw [itemTokens_cons_append, Tree.blockItems?]
    simp only [Input.withTokens, nodeUnless_item hd hleft,
      ih hds (Nat.lt_of_succ_lt_succ hbound)]
    rfl

theorem levelItems?_itemTokens (h : ∀ d ∈ ds, Reads node .item (nodeTokens d) d)
    (hbound : ds.length < bound) (hrest : rest.head? ≠ some .item) :
    Tree.levelItems? node bound ⟨itemTokens ds ++ rest, []⟩ =
      some (itemTrees ds, ⟨rest, []⟩) := by
  induction ds generalizing bound with
  | nil =>
    obtain ⟨bound, rfl⟩ := Nat.exists_eq_add_one_of_ne_zero (Nat.ne_zero_of_lt hbound)
    rw [itemTokens, List.nil_append, Tree.levelItems?]
    split
    · next more hitem => exact absurd (congrArg List.head? hitem) hrest
    · rfl
  | cons d ds ih =>
    obtain ⟨bound, rfl⟩ := Nat.exists_eq_add_one_of_ne_zero (Nat.ne_zero_of_lt hbound)
    obtain ⟨hd, hds⟩ := List.forall_mem_cons.mp h
    have hleft : [Token.item, .key, .value, .blockEnd] ⊆ stops := by decide
    rw [itemTokens_cons_append, Tree.levelItems?]
    simp only [Input.withTokens, nodeUnless_item hd hleft,
      ih hds (Nat.lt_of_succ_lt_succ hbound)]
    rfl

theorem fieldTokens_cons_append (k : String) :
    fieldTokens ((k, d) :: fs) ++ rest =
      .key :: ([.scalar .plain k] ++ (.value :: (valueTokens d ++ (fieldTokens fs ++ rest)))) := by
  rw [fieldTokens_eq, fieldTokens_eq, List.flatMap_cons]
  simp [keyTokens]

theorem blockFields?_fieldTokens
    (hkey : ∀ (k : String) (more : List Token), node .field ⟨[.scalar .plain k] ++ more, []⟩ =
      some (.scalar ⟨none, none⟩ .plain k, ⟨more, []⟩))
    (h : ∀ f ∈ fs, Reads node .field (valueTokens f.2) f.2) (hbound : fs.length < bound) :
    Tree.blockFields? node bound ⟨fieldTokens fs ++ .blockEnd :: rest, []⟩ =
      some (fieldTrees fs, ⟨rest, []⟩) := by
  induction fs generalizing bound with
  | nil =>
    obtain ⟨bound, rfl⟩ := Nat.exists_eq_add_one_of_ne_zero (Nat.ne_zero_of_lt hbound)
    rfl
  | cons f fs ih =>
    obtain ⟨bound, rfl⟩ := Nat.exists_eq_add_one_of_ne_zero (Nat.ne_zero_of_lt hbound)
    obtain ⟨k, d⟩ := f
    obtain ⟨hd, hfs⟩ := List.forall_mem_cons.mp h
    have hnext : (fieldTokens fs ++ .blockEnd :: rest).head? ≠ some .item := by
      cases fs with
      | nil => simp [fieldTokens]
      | cons f fs =>
        rw [fieldTokens_cons_append]
        simp
    obtain ⟨t, hhead, ht⟩ := exists_head?_valueTokens d
    have hvalue : Tree.fieldValue? node .field [.key, .value, .blockEnd]
        ⟨.value :: (valueTokens d ++ (fieldTokens fs ++ .blockEnd :: rest)), []⟩ =
        some (tree d, ⟨fieldTokens fs ++ .blockEnd :: rest, []⟩) :=
      (nodeUnless_eq hhead ht).trans (hd _ fun _ => hnext)
    have hunless : ∀ more : List Token, Tree.nodeUnless node .field [.key, .value, .blockEnd]
        ⟨[.scalar .plain k] ++ more, []⟩ = some (.scalar ⟨none, none⟩ .plain k, ⟨more, []⟩) :=
      fun more => (nodeUnless_eq rfl (by simp)).trans (hkey k more)
    rw [fieldTokens_cons_append, Tree.blockFields?]
    simp only [Input.withTokens, hunless, hvalue,
      ih hfs (Nat.lt_of_succ_lt_succ hbound)]
    rfl

/-! ## Nodes -/

theorem length_le_flatMap {α β : Type} {g : α → List β} {x : α} {xs : List α} (h : x ∈ xs) :
    (g x).length ≤ (xs.flatMap g).length := by
  simpa using ((List.singleton_sublist.mpr h).flatMap g).length_le

theorem length_nodeTokens_lt (h : d ∈ ds) : (nodeTokens d).length < (itemTokens ds).length := by
  have hle := length_le_flatMap (g := fun d => Token.item :: nodeTokens d) h
  rw [← itemTokens_eq, List.length_cons] at hle
  omega

theorem length_valueTokens_lt (h : f ∈ fs) :
    (valueTokens f.2).length < (fieldTokens fs).length := by
  have hle := length_le_flatMap
    (g := fun f : String × Document => keyTokens f.1.toList ++ valueTokens f.2) h
  rw [← fieldTokens_eq] at hle
  simp only [keyTokens, List.length_append, List.length_cons] at hle
  omega

theorem length_le_itemTokens (ds : List Document) : ds.length ≤ (itemTokens ds).length := by
  induction ds with
  | nil => exact Nat.le_refl 0
  | cons d ds ih =>
    simp only [itemTokens, List.length_cons, List.length_append]
    omega

theorem length_le_fieldTokens (fs : List (String × Document)) :
    fs.length ≤ (fieldTokens fs).length := by
  induction fs with
  | nil => exact Nat.le_refl 0
  | cons f fs ih =>
    rw [fieldTokens_eq, List.flatMap_cons, ← fieldTokens_eq]
    simp only [keyTokens, List.length_cons, List.length_append]
    omega

variable {handles : Tree.Handles} {depth : Nat}

theorem node?_blockSequence (h : setting ≠ .flow) :
    Tree.node? handles bound (depth + 1) setting ⟨.blockSequence :: ts, []⟩ =
      (Tree.blockItems? (Tree.node? handles bound depth) bound ⟨ts, []⟩).map
        fun (ts, left) => (.sequence ⟨none, none⟩ ts, left) :=
  if_neg h

theorem node?_blockMapping (h : setting ≠ .flow) :
    Tree.node? handles bound (depth + 1) setting ⟨.blockMapping :: ts, []⟩ =
      (Tree.blockFields? (Tree.node? handles bound depth) bound ⟨ts, []⟩).map
        fun (fs, left) => (.mapping ⟨none, none⟩ fs, left) :=
  if_neg h

theorem valueTokens_of_isScalar (h : isScalar d = true) : valueTokens d = [scalarToken d] := by
  cases d with
  | list | object => exact nomatch h
  | _ => rfl

/-- The tokens of the document are read as its tree where a node stands, and behind a key, if there
are fewer than `bound`. -/
structure ReadsBack (node : Tree.NodeReader) (bound : Nat) (d : Document) : Prop where
  alone : ∀ setting ≠ .flow, (nodeTokens d).length < bound → Reads node setting (nodeTokens d) d
  behind : (valueTokens d).length < bound → Reads node .field (valueTokens d) d

theorem readsBack_of_isScalar (h : isScalar d = true) :
    ReadsBack (Tree.node? handles bound (depth + 1)) bound d := by
  have hread : ∀ setting,
      Reads (Tree.node? handles bound (depth + 1)) setting [scalarToken d] d := by
    intro setting rest _
    rw [tree_of_isScalar h]
    rfl
  constructor
  · rw [nodeTokens_of_isScalar h]
    exact fun setting _ _ => hread setting
  · rw [valueTokens_of_isScalar h]
    exact fun _ => hread .field

theorem readsBack_list (h : ∀ d ∈ ds, ReadsBack (Tree.node? handles bound depth) bound d) :
    ReadsBack (Tree.node? handles bound (depth + 1)) bound (.list ds) := by
  cases ds with
  | nil =>
    have hread : ∀ setting, 2 < bound → Reads (Tree.node? handles bound (depth + 1)) setting
        [.flowSequence, .flowSequenceEnd] (.list []) := by
      intro setting hbound rest _
      obtain ⟨bound, rfl⟩ := Nat.exists_eq_add_one_of_ne_zero (Nat.ne_zero_of_lt hbound)
      rfl
    exact ⟨fun setting _ => hread setting, hread .field⟩
  | cons d ds =>
    have hitems : (itemTokens (d :: ds)).length < bound → ∀ x ∈ d :: ds,
        Reads (Tree.node? handles bound depth) .item (nodeTokens x) x := fun hbound x hx =>
      (h x hx).alone .item (by decide) (Nat.lt_trans (length_nodeTokens_lt hx) hbound)
    have hlength := length_le_itemTokens (d :: ds)
    constructor
    · intro setting hsetting hbound rest _
      have hless : (itemTokens (d :: ds)).length < bound := by
        simp only [nodeTokens, List.cons_append, List.length_cons, List.length_append] at hbound
        omega
      have htokens : nodeTokens (.list (d :: ds)) ++ rest =
          .blockSequence :: (itemTokens (d :: ds) ++ .blockEnd :: rest) := by
        simp [nodeTokens]
      rw [htokens, node?_blockSequence hsetting,
        blockItems?_itemTokens (hitems hless) (Nat.lt_of_le_of_lt hlength hless)]
      rfl
    · intro hless rest hrest
      have hnode : Tree.node? handles bound (depth + 1) .field
          ⟨itemTokens (d :: ds) ++ rest, []⟩ =
          (Tree.levelItems? (Tree.node? handles bound depth) bound
            ⟨itemTokens (d :: ds) ++ rest, []⟩).map
            fun (ts, left) => (.sequence ⟨none, none⟩ ts, left) := rfl
      rw [valueTokens, hnode, levelItems?_itemTokens (hitems hless)
        (Nat.lt_of_le_of_lt hlength hless) (hrest rfl)]
      rfl

theorem readsBack_object
    (h : ∀ f ∈ fs, ReadsBack (Tree.node? handles bound (depth + 1)) bound f.2) :
    ReadsBack (Tree.node? handles bound (depth + 2)) bound (.object fs) := by
  cases fs with
  | nil =>
    have hread : ∀ setting, 2 < bound → Reads (Tree.node? handles bound (depth + 2)) setting
        [.flowMapping, .flowMappingEnd] (.object []) := by
      intro setting hbound rest _
      obtain ⟨bound, rfl⟩ := Nat.exists_eq_add_one_of_ne_zero (Nat.ne_zero_of_lt hbound)
      rfl
    exact ⟨fun setting _ => hread setting, hread .field⟩
  | cons f fs =>
    have hread : ∀ setting ≠ .flow, (nodeTokens (.object (f :: fs))).length < bound →
        Reads (Tree.node? handles bound (depth + 2)) setting (nodeTokens (.object (f :: fs)))
          (.object (f :: fs)) := by
      intro setting hsetting hbound rest _
      have hlength := length_le_fieldTokens (f :: fs)
      have hless : (fieldTokens (f :: fs)).length < bound := by
        simp only [nodeTokens, List.cons_append, List.length_cons, List.length_append] at hbound
        omega
      have hfields : ∀ x ∈ f :: fs,
          Reads (Tree.node? handles bound (depth + 1)) .field (valueTokens x.2) x.2 :=
        fun x hx => (h x hx).behind (Nat.lt_trans (length_valueTokens_lt hx) hless)
      have htokens : nodeTokens (.object (f :: fs)) ++ rest =
          .blockMapping :: (fieldTokens (f :: fs) ++ .blockEnd :: rest) := by
        simp [nodeTokens]
      rw [htokens, node?_blockMapping hsetting, blockFields?_fieldTokens (fun _ _ => rfl) hfields
        (Nat.lt_of_le_of_lt hlength hless)]
      rfl
    exact ⟨hread, hread .field (by decide)⟩

/-- The tokens of a document are read as its tree if nodes may be nested deeper than it is. -/
theorem Writable.readsBack (h : Writable d) (hdepth : d.depth < depth) :
    ReadsBack (Tree.node? handles bound depth) bound d := by
  obtain ⟨depth, rfl⟩ := Nat.exists_eq_add_one_of_ne_zero (Nat.ne_zero_of_lt hdepth)
  induction h generalizing depth with
  | scalar h => exact readsBack_of_isScalar h.isScalar
  | list _ ih =>
    rw [Document.depth, Nat.add_lt_add_iff_right] at hdepth
    obtain ⟨depth, rfl⟩ := Nat.exists_eq_add_one_of_ne_zero (Nat.ne_zero_of_lt hdepth)
    have hitems := Document.depthItems_le_iff.mp (Nat.le_of_lt_succ hdepth)
    exact readsBack_list fun x hx => ih x hx depth (Nat.lt_succ_of_le (hitems x hx))
  | object _ _ ih =>
    rw [Document.depth, Nat.add_lt_add_iff_right] at hdepth
    obtain ⟨depth, rfl⟩ := Nat.exists_eq_add_one_of_ne_zero (Nat.ne_zero_of_lt hdepth)
    have hfields := Document.depthFields_le_iff.mp (Nat.le_of_lt_succ hdepth)
    exact readsBack_object fun x hx => ih x hx depth (Nat.lt_succ_of_le (hfields x hx))

end Collections

/-! ## Documents -/

/-- The tokens of an object that is not empty are read as its tree. -/
theorem ofTokens?_nodeTokens (h : Writable (.object (f :: fs))) {depth : Nat}
    (hdepth : (Document.object (f :: fs)).depth < depth) :
    Tree.ofTokens? depth (nodeTokens (.object (f :: fs))) = some (tree (.object (f :: fs))) := by
  have hback : ReadsBack (Tree.node? Tree.standardHandles
      ((nodeTokens (.object (f :: fs))).length + 1) depth)
      ((nodeTokens (.object (f :: fs))).length + 1) (.object (f :: fs)) := h.readsBack hdepth
  have hread := hback.alone .item (by decide) (Nat.lt_succ_self _) [] nofun
  rw [List.append_nil] at hread
  have hdocument : Tree.document? depth (nodeTokens (.object (f :: fs))) =
      some (tree (.object (f :: fs)), []) := by
    have hdirectives : Tree.directives? false [] (nodeTokens (.object (f :: fs))) =
        some ([], nodeTokens (.object (f :: fs))) := rfl
    rw [Tree.document?, hdirectives]
    simp only [hread]
    exact if_pos rfl
  rw [Tree.ofTokens?, hdocument]
  rfl

/-! ## Meaning -/

/-- The tree is taken for a node that means the document, and no alias is followed. -/
def Expands (anchors : List (Nat × Tree)) (depth : Nat) (d : Document) : Prop :=
  ∃ n, Node.expand anchors depth (tree d) = pure n ∧ n.document? = some d

variable {anchors : List (Nat × Tree)} {depth : Nat}

-- The recursion is behind a bind, so its equations are had by unfolding all of it.
theorem expand_scalar (p : Properties) (style : Style) (t : String) :
    Node.expand anchors depth (.scalar p style t) = pure (.scalar p.tag style t) := by
  delta Node.expand
  cases depth <;> rfl

theorem expand_sequence (p : Properties) (ts : List Tree) :
    Node.expand anchors (depth + 1) (.sequence p ts) =
      (ts.mapM (Node.expand anchors depth) >>= fun ns => pure (.sequence p.tag ns)) := by
  delta Node.expand
  rfl

/-- A field as a field of nodes. -/
def expandField (anchors : List (Nat × Tree)) (depth : Nat) (f : Tree × Tree) :
    Node.Expansion (String × Node) := do
  let key ← Node.keyText anchors f.1
  return (key, ← Node.expand anchors depth f.2)

theorem expand_mapping (p : Properties) (fs : List (Tree × Tree)) :
    Node.expand anchors (depth + 1) (.mapping p fs) =
      (fs.mapM (expandField anchors depth) >>= fun ns => pure (.mapping p.tag ns)) := by
  delta expandField Node.expand
  rfl

theorem expands_scalar (h : ScalarOf d text) : Expands anchors depth d := by
  refine ⟨.scalar none (scalarStyle d) (scalarText d), ?_, h.document?_eq⟩
  rw [tree_of_isScalar h.isScalar, expand_scalar]

theorem expands_list (h : ∀ d ∈ ds, Expands anchors depth d) :
    Expands anchors (depth + 1) (.list ds) := by
  have hitems : ∃ ns, (itemTrees ds).mapM (Node.expand anchors depth) = pure ns ∧
      Node.documents? ns = some ds := by
    induction ds with
    | nil => exact ⟨[], rfl, rfl⟩
    | cons d ds ih =>
      obtain ⟨⟨n, hn, hdocument⟩, hds⟩ := List.forall_mem_cons.mp h
      obtain ⟨ns, hns, hdocuments⟩ := ih hds
      refine ⟨n :: ns, ?_, ?_⟩
      · simp [itemTrees, hn, hns]
      · simp [Node.documents?, hdocument, hdocuments]
  obtain ⟨ns, hns, hdocuments⟩ := hitems
  refine ⟨.sequence none ns, ?_, ?_⟩
  · rw [tree, expand_sequence, hns, pure_bind]
  · rw [Node.document?, if_neg (by simp [Node.localName?]), hdocuments]
    rfl

theorem expands_object (h : ∀ f ∈ fs, Expands anchors depth f.2) :
    Expands anchors (depth + 1) (.object fs) := by
  have hfields : ∃ ns, (fieldTrees fs).mapM (expandField anchors depth) = pure ns ∧
      Node.fieldDocuments? ns = some fs := by
    induction fs with
    | nil => exact ⟨[], rfl, rfl⟩
    | cons f fs ih =>
      obtain ⟨⟨n, hn, hdocument⟩, hfs⟩ := List.forall_mem_cons.mp h
      obtain ⟨ns, hns, hdocuments⟩ := ih hfs
      have hfirst : expandField anchors depth (.scalar ⟨none, none⟩ .plain f.1, tree f.2) =
          pure (f.1, n) := by
        have hkey : Node.keyText anchors (.scalar ⟨none, none⟩ .plain f.1) = pure f.1 := rfl
        simp [expandField, hkey, hn]
      refine ⟨(f.1, n) :: ns, ?_, ?_⟩
      · simp [fieldTrees, hfirst, hns]
      · simp [Node.fieldDocuments?, hdocument, hdocuments]
  obtain ⟨ns, hns, hdocuments⟩ := hfields
  refine ⟨.mapping none ns, ?_, ?_⟩
  · rw [tree, expand_mapping, hns, pure_bind]
  · rw [Node.document?, if_neg (by simp [Node.localName?]), hdocuments]
    rfl

theorem Writable.expands (h : Writable d) (hdepth : d.depth ≤ depth) :
    Expands anchors depth d := by
  induction h generalizing depth with
  | scalar h => exact expands_scalar h
  | list _ ih =>
    obtain ⟨depth, rfl⟩ := Nat.exists_eq_add_one_of_ne_zero (Nat.ne_zero_of_lt hdepth)
    exact expands_list fun x hx =>
      ih x hx (Document.depthItems_le_iff.mp (Nat.le_of_succ_le_succ hdepth) x hx)
  | object _ _ ih =>
    obtain ⟨depth, rfl⟩ := Nat.exists_eq_add_one_of_ne_zero (Nat.ne_zero_of_lt hdepth)
    exact expands_object fun x hx =>
      ih x hx (Document.depthFields_le_iff.mp (Nat.le_of_succ_le_succ hdepth) x hx)

/-- The tree of a document means the document if it is not nested too deep. -/
theorem ofTree?_tree (h : Writable d) (hdepth : d.depth ≤ depth) :
    (Node.ofTree? depth (tree d)).bind Node.document? = some d := by
  obtain ⟨n, hn, hdocument⟩ : Expands (tree d).anchored depth d := h.expands hdepth
  rw [Node.ofTree?, hn]
  exact hdocument

end AccessPolicy.Yaml
