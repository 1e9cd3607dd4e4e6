import AccessPolicy.Document.Yaml.Node
import AccessPolicy.Proofs.Document.Yaml.Plain
import AccessPolicy.Proofs.Document.Yaml.Quoted
import AccessPolicy.Proofs.Document.Yaml.Spelling

/-!
# How scalars are written

A scalar is written on one line, plain or between quotes, and its text spells it in one of the ways
that the reader undoes (`Yaml.Spells`). What the scalar means when it is read is what was written
(`Yaml.ScalarOf`). Keys are plain words (`Yaml.IsKey`).
-/

namespace AccessPolicy.Yaml

variable {cs text : List Char} {style : Style} {c : Char}

/-! ## Plain texts -/

theorem holdsMark_of_forall (h : ∀ c ∈ cs, c ≠ ':' ∧ isBlank c = false) : holdsMark cs = false := by
  induction cs with
  | nil => rfl
  | cons c cs ih =>
    obtain ⟨⟨hcolon, hblank⟩, hcs⟩ := List.forall_mem_cons.mp h
    rw [holdsMark, ih hcs]
    simp [hcolon, hblank]

theorem isBlank_of_isGraphic (h : isGraphic c = true) : isBlank c = false := by
  rw [isBlank_eq_false_iff]
  constructor <;> (rintro rfl; exact absurd h (by decide))

/-- A graphic text without colons is plain if it starts well. -/
theorem isPlain_of_isGraphic (h : ∀ c ∈ cs, isGraphic c = true ∧ c ≠ ':')
    (hstart : startsBadly cs = false) : IsPlain cs where
  printed c hc := isPrinted_of_isGraphic (h c hc).1
  start := hstart
  last hlast := absurd (h ' ' (List.mem_of_getLast? hlast)).1 (by decide)
  mark := holdsMark_of_forall fun c hc => ⟨(h c hc).2, isBlank_of_isGraphic (h c hc).1⟩

theorem startsBadly_cons_eq_false {rest : List Char} (hspace : c ≠ ' ')
    (hindicator : c ∉ indicators) (hmark : c ≠ '?' ∧ c ≠ ':' ∧ c ≠ '-' ∧ c ≠ '.') :
    startsBadly (c :: rest) = false := by
  simp [startsBadly, hspace, hindicator, hmark]

theorem isPlain_repr (k : Int) : IsPlain k.repr.toList := by
  have hdigits := isDigit_of_mem_toDigits (n := k.natAbs)
  have hother : ∀ d : Char, d.isDigit = true → ∀ e : Char, e.isDigit = false → d ≠ e :=
    fun d hd e he hde => by simp [← hde, hd] at he
  have hgraphic : ∀ c ∈ Nat.toDigits 10 k.natAbs, isGraphic c = true ∧ c ≠ ':' := fun c hc =>
    ⟨isGraphic_of_isDigit (hdigits c hc), hother c (hdigits c hc) _ rfl⟩
  obtain ⟨d, ds, hcons⟩ : ∃ d ds, Nat.toDigits 10 k.natAbs = d :: ds :=
    List.exists_cons_of_ne_nil Nat.toDigits_ne_nil
  have hd := hother d (hdigits d (hcons ▸ List.mem_cons_self))
  rw [Json.toList_repr]
  split
  · refine isPlain_of_isGraphic (List.forall_mem_cons.mpr ⟨by decide, hgraphic⟩) ?_
    rw [List.singleton_append, hcons]
    simp [startsBadly, indicators, isBlank, hd ' ' rfl, hd '\t' rfl, hd '-' rfl]
  · refine isPlain_of_isGraphic hgraphic ?_
    have hindicator : ∀ e ∈ indicators, e.isDigit = false := by simp [indicators]
    rw [List.nil_append, hcons]
    exact startsBadly_cons_eq_false (hd _ rfl) (fun hmem => hd d (hindicator d hmem) rfl)
      ⟨hd _ rfl, hd _ rfl, hd _ rfl, hd _ rfl⟩

/-! ## Spellings -/

/-- The text spells a scalar of the given style and characters. -/
inductive Spells : List Char → Style → List Char → Prop
  | plain {cs : List Char} (h : IsPlain cs) : Spells cs .plain cs
  | single {cs : List Char} (h : ∀ c ∈ cs, isPrinted c = true) : Spells (singleQuoted cs) .quoted cs
  | double (cs : List Char) : Spells (doubleQuoted cs) .quoted cs

theorem Spells.printed (h : Spells text style cs) : ∀ c ∈ text, isPrinted c = true := by
  cases h with
  | plain h => exact h.printed
  | single h =>
    simp only [singleQuoted_eq, List.forall_mem_append, List.forall_mem_cons, List.mem_flatMap]
    refine ⟨⟨by decide, ?_⟩, by decide, by simp⟩
    rintro c ⟨d, hd, hc⟩
    rcases mem_double hc with rfl | rfl
    · exact h _ hd
    · decide
  | double cs =>
    simp only [doubleQuoted, List.forall_mem_append, List.forall_mem_cons, List.mem_flatMap]
    refine ⟨⟨by decide, ?_⟩, by decide, by simp⟩
    rintro c ⟨d, -, hc⟩
    exact isPrinted_of_mem_escape hc

theorem spells_stringText (cs : List Char) :
    ∃ style, Spells (stringText cs) style cs ∧ (style = .plain → readsAsString cs = true) := by
  unfold stringText
  by_cases hstring : readsAsString cs = true
  · by_cases hprinted : cs.all isPrinted = true
    · have hall := List.all_eq_true.mp hprinted
      by_cases hbad : (startsBadly cs || decide (cs.getLast? = some ' ') || holdsMark cs) = true
      · exact ⟨.quoted, by simpa [hstring, hprinted, hbad] using .single hall, nofun⟩
      · have hplain : IsPlain cs := by
          simp only [Bool.or_eq_true, decide_eq_true_eq, not_or, Bool.not_eq_true] at hbad
          exact ⟨hall, hbad.1.1, hbad.1.2, hbad.2⟩
        exact ⟨.plain, by simpa [hstring, hprinted, hbad] using .plain hplain, fun _ => hstring⟩
    · exact ⟨.quoted, by simpa [hstring, hprinted] using .double cs, nofun⟩
  · have hgraphic := isGraphic_of_not_readsAsString (by simpa using hstring)
    exact ⟨.quoted, by
      simpa [hstring] using .single fun c hc => isPrinted_of_isGraphic (hgraphic c hc), nofun⟩

/-! ## Scalars -/

/-- The document is no collection. -/
def isScalar : Document → Bool
  | .list _ | .object _ => false
  | _ => true

/-- The style of the scalar that a text spells. -/
def textStyle : List Char → Style
  | '\'' :: _ | '"' :: _ => .quoted
  | _ => .plain

/-- The style of the scalar that a document is written as. -/
def scalarStyle : Document → Style
  | .string s => textStyle (stringText s.toList)
  | _ => .plain

/-- The characters of the scalar that a document is written as. -/
def scalarText : Document → String
  | .null => "null"
  | .bool true => "true"
  | .bool false => "false"
  | .int n => n.repr
  | .decimal w => w
  | .string s => s
  | .list _ | .object _ => ""

/-- The document is a scalar that is written as the text, and the scalar that the text spells means
the document. -/
structure ScalarOf (d : Document) (text : List Char) : Prop where
  isScalar : isScalar d = true
  lines_eq : lines d = [text]
  spells : Spells text (scalarStyle d) (scalarText d).toList
  document?_eq : (Node.scalar none (scalarStyle d) (scalarText d)).document? = some d

theorem Spells.style_eq (h : Spells text style cs) : style = textStyle text := by
  cases h with
  | plain h =>
    unfold textStyle
    split
    case h_1 | h_2 => exact absurd (by decide) h.not_mem_indicators
    case h_3 => rfl
  | single h => rfl
  | double cs => rfl

theorem scalarOf_null : ScalarOf .null "null".toList where
  isScalar := rfl
  lines_eq := rfl
  spells := .plain ⟨List.all_eq_true.mp rfl, by decide, by decide, by decide⟩
  document?_eq := rfl

theorem scalarOf_int {k : Int} (hlow : -(maxInt64 + 1) ≤ k) (hhigh : k ≤ maxUInt64) :
    ScalarOf (.int k) k.repr.toList where
  isScalar := rfl
  lines_eq := rfl
  spells := .plain (isPlain_repr k)
  document?_eq := resolve?_repr hlow hhigh

theorem scalarOf_string (s : String) : ScalarOf (.string s) (stringText s.toList) := by
  obtain ⟨style, hspells, hplain⟩ := spells_stringText s.toList
  obtain rfl := hspells.style_eq
  refine ⟨rfl, rfl, hspells, ?_⟩
  by_cases hstyle : textStyle (stringText s.toList) = .plain
  · rw [Node.document?, scalarStyle, if_pos hstyle, scalarText,
      resolve?_of_readsAsString (hplain hstyle), String.ofList_toList]
  · rw [Node.document?, scalarStyle, if_neg hstyle, scalarText]

/-! ## Keys -/

/-- The characters are a short word of small letters that is read as a string. -/
structure IsKey (cs : List Char) : Prop where
  letters : ∀ c ∈ cs, c.isLower = true
  ne_nil : cs ≠ []
  short : cs.length ≤ 256
  string : readsAsString cs = true

namespace IsKey

variable (h : IsKey cs)

include h

theorem isGraphic : ∀ c ∈ cs, isGraphic c = true := fun c hc => by
  have hletter : (decide ('a'.val ≤ c.val) && decide (c.val ≤ 'z'.val)) = true := h.letters c hc
  simp only [Bool.and_eq_true, decide_eq_true_eq, UInt32.le_iff_toNat_le] at hletter
  obtain ⟨hlow, hhigh⟩ : 0x61 ≤ c.toNat ∧ c.toNat ≤ 0x7A := hletter
  simp only [Yaml.isGraphic, Bool.and_eq_true, decide_eq_true_eq]
  omega

theorem ne_of_not_isLower {d : Char} (hc : c ∈ cs) (hd : d.isLower = false) : c ≠ d :=
  fun hcd => by simp [← hcd, h.letters c hc] at hd

theorem isPlain : IsPlain cs := by
  refine isPlain_of_isGraphic (fun c hc => ⟨h.isGraphic c hc, h.ne_of_not_isLower hc rfl⟩) ?_
  obtain ⟨c, rest, rfl⟩ := List.exists_cons_of_ne_nil h.ne_nil
  have hother : ∀ d : Char, d.isLower = false → c ≠ d := fun d =>
    h.ne_of_not_isLower List.mem_cons_self
  have hindicator : ∀ d ∈ indicators, d.isLower = false := by simp [indicators]
  exact startsBadly_cons_eq_false (hother _ rfl) (fun hmem => hother c (hindicator c hmem) rfl)
    ⟨hother _ rfl, hother _ rfl, hother _ rfl, hother _ rfl⟩

theorem not_isSpace : ∀ c ∈ cs, isSpace c = false := fun c hc => by
  rw [isSpace_eq_false_iff]
  exact ⟨isBlank_of_isGraphic (h.isGraphic c hc),
    not_isBreak_of_isPrinted (isPrinted_of_isGraphic (h.isGraphic c hc))⟩

theorem stringText_eq : stringText cs = cs := by
  have hplain := h.isPlain
  have hprinted : cs.all isPrinted = true := List.all_eq_true.mpr hplain.printed
  simp [stringText, h.string, hprinted, hplain.start, hplain.last, hplain.mark]

end IsKey

end AccessPolicy.Yaml
