import AccessPolicy.Proofs.Document.Yaml.Tree

/-!
# Documents survive YAML texts

A document that is written as YAML is read back as that document (`Yaml.read_write`). All characters
of the text are printed or end lines, so that the text is read as it stands.
-/

namespace AccessPolicy.Yaml

/-! ## Characters of texts -/

theorem isAllowed_of_isPrinted {c : Char} (h : isPrinted c = true) : isAllowed c = true := by
  simp only [isPrinted, Bool.not_eq_true', Bool.or_eq_false_iff, Bool.and_eq_false_imp,
    decide_eq_true_eq, decide_eq_false_iff_not] at h
  obtain ⟨⟨⟨⟨⟨hlow, hcontrol⟩, -⟩, -⟩, hfffe⟩, hffff⟩ := h
  have hfffe' : c.toNat ≠ 0xFFFE := fun hc => hfffe (Char.toNat_inj.mp hc)
  have hffff' : c.toNat ≠ 0xFFFF := fun hc => hffff (Char.toNat_inj.mp hc)
  simp only [isAllowed, Bool.or_eq_true, Bool.and_eq_true, decide_eq_true_eq]
  omega

/-- All characters of the lines are printed. -/
def Printed (ls : List (List Char)) : Prop :=
  ∀ l ∈ ls, ∀ c ∈ l, isPrinted c = true

variable {d : Document} {ds : List Document} {f : String × Document}
  {fs : List (String × Document)} {lead text : List Char} {ls ks : List (List Char)}

theorem Printed.map (h : Printed ls) (hlead : lead.all isPrinted = true) :
    Printed (ls.map (lead ++ ·)) := by
  intro l hl
  obtain ⟨k, hk, rfl⟩ := List.mem_map.mp hl
  exact List.forall_mem_append.mpr ⟨List.all_eq_true.mp hlead, h k hk⟩

theorem Printed.hang (h : Printed ls) (hlead : lead.all isPrinted = true) :
    Printed (hang lead ls) := by
  cases ls with
  | nil => exact h
  | cons l ls =>
    obtain ⟨hl, hls⟩ := List.forall_mem_cons.mp h
    have hmargin : Printed (ls.map ([' ', ' '] ++ ·)) := Printed.map hls (by decide)
    exact List.forall_mem_cons.mpr
      ⟨List.forall_mem_append.mpr ⟨List.all_eq_true.mp hlead, hl⟩, hmargin⟩

theorem Printed.flatMap {α : Type} {g : α → List (List Char)} {as : List α}
    (h : ∀ a ∈ as, Printed (g a)) : Printed (as.flatMap g) := by
  intro l hl
  obtain ⟨a, ha, hl⟩ := List.mem_flatMap.mp hl
  exact h a ha l hl

theorem printed_entryLines {k : String} (hkey : IsKey k.toList) (h : Printed (lines d)) :
    Printed (entryLines (k, d)) := by
  have hlead : (stringText k.toList ++ [':']).all isPrinted = true := by
    rw [hkey.stringText_eq, List.all_append, List.all_eq_true.mpr hkey.isPlain.printed]
    rfl
  have hbehind : Printed ((lines d).map ((stringText k.toList ++ [':'] ++ [' ']) ++ ·)) :=
    h.map (by rw [List.all_append, hlead]; rfl)
  have hmargin : Printed ((lines d).map ([' ', ' '] ++ ·)) := h.map (by decide)
  unfold entryLines fieldLines
  dsimp only
  split
  case h_1 | h_2 =>
    rw [fieldLines, List.append_nil]
    exact List.forall_mem_cons.mpr ⟨List.all_eq_true.mp hlead, ‹_›⟩
  case h_3 =>
    rw [fieldLines, List.append_nil]
    exact hbehind

theorem Writable.printed (h : Writable d) : Printed (lines d) := by
  induction h with
  | scalar h =>
    rw [h.lines_eq]
    exact List.forall_mem_singleton.mpr h.spells.printed
  | @list ds _ ih =>
    cases ds with
    | nil => exact List.forall_mem_singleton.mpr (List.all_eq_true.mp rfl)
    | cons d ds =>
      rw [lines, itemLines_eq]
      exact Printed.flatMap fun x hx => (ih x hx).hang (by decide)
  | @object fs hkeys _ ih =>
    cases fs with
    | nil => exact List.forall_mem_singleton.mpr (List.all_eq_true.mp rfl)
    | cons f fs =>
      rw [lines, fieldLines_eq]
      exact Printed.flatMap fun x hx => printed_entryLines (hkeys x hx) (ih x hx)

theorem unifyBreaks_eq {cs : List Char} (h : ∀ c ∈ cs, c ≠ '\r' ∧ c ≠ '\x85') :
    unifyBreaks cs = cs := by
  induction cs with
  | nil => rfl
  | cons c cs ih =>
    obtain ⟨⟨hreturn, hnext⟩, hcs⟩ := List.forall_mem_cons.mp h
    rw [unifyBreaks]
    · simp [hreturn, hnext, ih hcs]
    · exact fun _ hc => absurd hc hreturn

/-- A text of printed lines is read as it stands. -/
theorem readable?_eq (h : Printed ls) :
    readable? (String.ofList (ls.flatMap (· ++ ['\n']))) = some (ls.flatMap (· ++ ['\n'])) := by
  have hchars : ∀ c ∈ ls.flatMap (· ++ ['\n']), isPrinted c = true ∨ c = '\n' := by
    intro c hc
    obtain ⟨l, hl, hc⟩ := List.mem_flatMap.mp hc
    exact (List.mem_append.mp hc).imp (h l hl c) List.mem_singleton.mp
  have hallowed : (ls.flatMap (· ++ ['\n'])).all isAllowed = true := by
    refine List.all_eq_true.mpr fun c hc => ?_
    rcases hchars c hc with hprinted | rfl
    · exact isAllowed_of_isPrinted hprinted
    · rfl
  have hbreaks : unifyBreaks (ls.flatMap (· ++ ['\n'])) = ls.flatMap (· ++ ['\n']) := by
    refine unifyBreaks_eq fun c hc => ?_
    rcases hchars c hc with hprinted | rfl
    · constructor <;> (rintro rfl; exact absurd hprinted (by decide))
    · decide
  rw [readable?, String.toList_ofList, if_pos hallowed, hbreaks]

/-! ## Texts of documents -/

/-- The text of an object that is not empty is read back as that object if it is not nested too
deep. -/
theorem read_write (h : Writable (.object (f :: fs)))
    (hdepth : (Document.object (f :: fs)).depth ≤ maxDepth) :
    read (write (.object (f :: fs))) = some (.object (f :: fs)) := by
  have htree := ofTokens?_nodeTokens h (Nat.lt_succ_of_le hdepth)
  rw [read, readNode, write, readable?_eq h.printed]
  simp only [Option.bind_eq_bind, Option.bind_some, tokens?_lines h, htree]
  exact ofTree?_tree h hdepth

end AccessPolicy.Yaml
