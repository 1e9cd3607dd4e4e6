import AccessPolicy.Proofs.Document.Yaml.Block

/-!
# The tokens of a written document

Documents that are written are scalars, lists and objects (`Yaml.Writable`). `Yaml.nodeTokens` are
the tokens that the structure of a document says, and the text of a document is cut into them
(`Yaml.tokens?_lines`). A list under a key has no brackets among the tokens, because its items stand
no further in than the key.
-/

namespace AccessPolicy.Yaml

/-! ## Documents that are written -/

/-- The document has a text that is read back : its scalars have, and its keys are plain words. -/
inductive Writable : Document → Prop
  | scalar {d : Document} {text : List Char} (h : ScalarOf d text) : Writable d
  | list {ds : List Document} (h : ∀ d ∈ ds, Writable d) : Writable (.list ds)
  | object {fs : List (String × Document)} (hkeys : ∀ f ∈ fs, IsKey f.1.toList)
    (h : ∀ f ∈ fs, Writable f.2) : Writable (.object fs)

/-- The token of the scalar that a document is written as. -/
def scalarToken (d : Document) : Token :=
  .scalar (scalarStyle d) (scalarText d)

mutual

/-- The tokens of a document. -/
def nodeTokens : Document → List Token
  | .list [] => [.flowSequence, .flowSequenceEnd]
  | .list (d :: ds) => .blockSequence :: itemTokens (d :: ds) ++ [.blockEnd]
  | .object [] => [.flowMapping, .flowMappingEnd]
  | .object (f :: fs) => .blockMapping :: fieldTokens (f :: fs) ++ [.blockEnd]
  | d => [scalarToken d]

/-- The tokens of items. -/
def itemTokens : List Document → List Token
  | [] => []
  | d :: ds => .item :: nodeTokens d ++ itemTokens ds

/-- The tokens of fields. -/
def fieldTokens : List (String × Document) → List Token
  | [] => []
  | (k, d) :: fs =>
    keyTokens k.toList ++
      (match d with
        | .list (x :: xs) => itemTokens (x :: xs)
        | d => nodeTokens d) ++ fieldTokens fs

end

/-- The tokens of a document behind a key. -/
def valueTokens : Document → List Token
  | .list (d :: ds) => itemTokens (d :: ds)
  | d => nodeTokens d

/-- The lines of a field. -/
def entryLines (f : String × Document) : List (List Char) :=
  fieldLines [f]

variable {d : Document} {ds : List Document} {f : String × Document}
  {fs : List (String × Document)} {text : List Char}

theorem itemLines_eq (ds : List Document) :
    itemLines ds = ds.flatMap fun d => hang ['-', ' '] (lines d) := by
  induction ds with
  | nil => rfl
  | cons d ds ih => rw [itemLines, ih, List.flatMap_cons]

theorem itemTokens_eq (ds : List Document) :
    itemTokens ds = ds.flatMap fun d => .item :: nodeTokens d := by
  induction ds with
  | nil => rfl
  | cons d ds ih => rw [itemTokens, ih, List.flatMap_cons]

theorem fieldLines_eq (fs : List (String × Document)) :
    fieldLines fs = fs.flatMap entryLines := by
  induction fs with
  | nil => rfl
  | cons f fs ih =>
    have hcons : fieldLines (f :: fs) = entryLines f ++ fieldLines fs :=
      congrArg (· ++ fieldLines fs) (List.append_nil _).symm
    rw [hcons, ih, List.flatMap_cons]

theorem fieldTokens_eq (fs : List (String × Document)) :
    fieldTokens fs = fs.flatMap fun f => keyTokens f.1.toList ++ valueTokens f.2 := by
  induction fs with
  | nil => rfl
  | cons f fs ih =>
    have hcons : fieldTokens (f :: fs) =
        keyTokens f.1.toList ++ valueTokens f.2 ++ fieldTokens fs := by
      obtain ⟨k, d⟩ := f
      cases d with
      | list ds => cases ds <;> rfl
      | _ => rfl
    rw [hcons, ih, List.flatMap_cons]

theorem nodeTokens_of_isScalar (h : isScalar d = true) : nodeTokens d = [scalarToken d] := by
  cases d with
  | list | object => exact nomatch h
  | _ => rfl

/-! ## Documents are cut -/

/-- The lines of a document are cut into its tokens, as a value and as part of a field. -/
structure Laid (d : Document) : Prop where
  value : Value (lines d) (nodeTokens d)
  field : ∀ {k : String}, IsKey k.toList →
    Block .blockMapping (entryLines (k, d)) (keyTokens k.toList ++ valueTokens d)

/-- A document on one line is laid out behind its key. -/
theorem Inline.laid (h : Inline text (nodeTokens d)) (hlines : lines d = [text])
    (hentry : ∀ k, entryLines (k, d) = [stringText k.toList ++ [':'] ++ [' '] ++ text])
    (hvalue : valueTokens d = nodeTokens d) : Laid d where
  value := by
    rw [hlines]
    exact h.value
  field {k} hkey := by
    rw [hentry, hvalue, hkey.stringText_eq]
    simpa using h.field hkey

theorem ScalarOf.laid (h : ScalarOf d text) : Laid d := by
  have hscalar := h.isScalar
  have hinline : Inline text (nodeTokens d) := by
    have hspells := h.spells.inline
    rwa [String.ofList_toList, ← scalarToken, ← nodeTokens_of_isScalar hscalar] at hspells
  refine hinline.laid h.lines_eq (fun k => ?_) ?_
  · have hmap : entryLines (k, d) =
        (lines d).map ((stringText k.toList ++ [':'] ++ [' ']) ++ ·) := by
      cases d with
      | list | object => exact nomatch hscalar
      | _ => exact List.append_nil _
    rw [hmap, h.lines_eq]
    rfl
  · cases d with
    | list | object => exact nomatch hscalar
    | _ => rfl

theorem laid_list (h : ∀ d ∈ ds, Laid d) : Laid (.list ds) := by
  cases ds with
  | nil =>
    exact (inline_brackets (by simp [Stream.brackets])).laid rfl (fun _ => rfl) rfl
  | cons d ds =>
    have hblock : Block .blockSequence (itemLines (d :: ds)) (itemTokens (d :: ds)) := by
      rw [itemLines_eq, itemTokens_eq]
      exact Block.flatMap fun x hx => (h x hx).value.item
    refine ⟨hblock.value, fun {k} hkey => ?_⟩
    have hentry : entryLines (k, .list (d :: ds)) =
        (stringText k.toList ++ [':']) :: itemLines (d :: ds) := List.append_nil _
    rw [hentry, hkey.stringText_eq]
    exact hblock.field hkey

theorem block_fields (hkeys : ∀ x ∈ f :: fs, IsKey x.1.toList) (h : ∀ x ∈ f :: fs, Laid x.2) :
    Block .blockMapping (fieldLines (f :: fs)) (fieldTokens (f :: fs)) := by
  rw [fieldLines_eq, fieldTokens_eq]
  exact Block.flatMap fun x hx => (h x hx).field (hkeys x hx)

theorem laid_object (hkeys : ∀ f ∈ fs, IsKey f.1.toList) (h : ∀ f ∈ fs, Laid f.2) :
    Laid (.object fs) := by
  cases fs with
  | nil =>
    exact (inline_brackets (by simp [Stream.brackets])).laid rfl (fun _ => rfl) rfl
  | cons f fs =>
    have hvalue := (block_fields hkeys h).value
    refine ⟨hvalue, fun {k} hkey => ?_⟩
    have hentry : entryLines (k, .object (f :: fs)) =
        (stringText k.toList ++ [':']) :: (fieldLines (f :: fs)).map ([' ', ' '] ++ ·) :=
      List.append_nil _
    rw [hentry, hkey.stringText_eq]
    exact hvalue.field hkey

theorem Writable.laid (h : Writable d) : Laid d := by
  induction h with
  | scalar h => exact h.laid
  | list _ ih => exact laid_list ih
  | object hkeys _ ih => exact laid_object hkeys ih

/-- The text of an object that is not empty is cut into the tokens of the object. -/
theorem tokens?_lines (h : Writable (.object (f :: fs))) :
    tokens? ((lines (.object (f :: fs))).flatMap (· ++ ['\n'])) =
      some (nodeTokens (.object (f :: fs))) := by
  have hfields : Block .blockMapping (fieldLines (f :: fs)) (fieldTokens (f :: fs)) := by
    cases h with
    | scalar h => exact nomatch h.isScalar
    | object hkeys h => exact block_fields hkeys fun x hx => (h x hx).laid
  exact hfields.tokens?_eq

end AccessPolicy.Yaml
