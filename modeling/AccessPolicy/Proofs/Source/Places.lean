import AccessPolicy.Proofs.Source.Offset
import AccessPolicy.Proofs.Source.Readings
import AccessPolicy.Proofs.Text.Lines

/-!
# Where lexemes stand

The place of a lexeme can be counted in the text ahead of it (`IsPlace`). It can also be had by
keeping no more than a `LineStart` from one lexeme to the next : the number of the line and the byte
it starts at. Only a run of line feeds changes it, since no other lexeme has a line feed and neither
have the blanks between them. The column is then one more than the characters from that byte to the
lexeme, which always can be cut out of the text. `Lexeme.exact_of_mem_along` says that for every
lexeme of a text both ways agree with its position.
-/

namespace AccessPolicy

open String (utf8Len)

/-- The characters `mid` are those of a text from the byte `low` up to the byte `high`. -/
def IsSlice (cs : List Char) (low high : Nat) (mid : List Char) : Prop :=
  ∃ before after, cs = before ++ (mid ++ after) ∧ utf8Len before = low ∧
    utf8Len (before ++ mid) = high

/-- The byte `offset` of a text is on this line and at this column, by the line feeds and the
characters before it. -/
def IsPlace (cs : List Char) (offset line column : Nat) : Prop :=
  ∃ before after, cs = before ++ after ∧ utf8Len before = offset ∧
    line = 1 + before.count '\n' ∧ column = 1 + (lastLine before).length

theorem Position.isPlace_start_past (before after : List Char) :
    IsPlace (before ++ after) (start.past before).offset (start.past before).line
      (start.past before).column :=
  ⟨before, after, rfl, (offset_start_past before).symm, line_start_past before,
    column_start_past before⟩

theorem isSlice_pastLines (before after : List Char) :
    IsSlice (before ++ after) (utf8Len (pastLines before)) (utf8Len before) (lastLine before) := by
  have hsplit := pastLines_append_lastLine before
  exact ⟨pastLines before, after, by rw [← List.append_assoc, hsplit], rfl, by rw [hsplit]⟩

/-! ## Characters of a lexeme -/

namespace Lexeme

theorem isBlank_newline : isBlank '\n' = false := rfl

/-- A lexeme is taken where a character stands that is not blank. -/
theorem exists_munch_of_next? {p : Position} {cs rest : List Char} {l : Placed}
    (h : next? p cs = some (l, rest)) :
    ∃ c more, isBlank c = false ∧ (munch c more).1 = l.lexeme := by
  unfold next? at h
  split at h
  · simp at h
  · next c more hc =>
    obtain ⟨rfl, rfl⟩ := Prod.mk.inj (Option.some.inj h)
    have hblank := List.head?_dropWhile_not isBlank cs
    rw [hc] at hblank
    exact ⟨c, more, by simpa using hblank, rfl⟩

theorem exists_munch_of_mem_scan {p : Position} {cs : List Char} {l : Placed}
    (h : l ∈ scan p cs) : ∃ c more, isBlank c = false ∧ (munch c more).1 = l.lexeme := by
  fun_induction scan p cs with
  | case1 => simp at h
  | case2 p cs l' rest hl ih =>
    rcases List.mem_cons.mp h with rfl | h
    · exact exists_munch_of_next? hl
    · exact ih h

/-- Only a run of line feeds has a line feed in it. -/
theorem newline_not_mem_munch {c : Char} {cs : List Char}
    (h : (munch c cs).1.shape ≠ .newlines) : '\n' ∉ (munch c cs).1.text := by
  have hc : c ≠ '\n' := by
    rintro rfl
    exact h rfl
  obtain ⟨more, htext⟩ := exists_text_munch c cs
  have hproper := proper_munch c cs
  generalize (munch c cs).1 = l at h htext hproper
  obtain ⟨shape, text⟩ := l
  intro hmem
  cases shape with
  | newlines => exact h rfl
  | word =>
    obtain ⟨d, ds, hchars, hd, hds⟩ := exists_cons_of_isWord hproper
    rw [String.toList_ofList] at hchars
    rw [show text = d :: ds from hchars] at hmem
    rcases List.mem_cons.mp hmem with rfl | hmem
    · cases hd
    · cases hds _ hmem
  | digits => cases hproper _ hmem
  | quoted =>
    obtain ⟨ds, rfl, hds⟩ := hproper
    have hmem : '\n' ∈ ds := by simpa using hmem
    cases hds _ hmem
  | unterminated =>
    obtain ⟨ds, rfl, hds⟩ := hproper
    have hmem : '\n' ∈ ds := by simpa using hmem
    cases hds _ hmem
  | symbol s =>
    rw [show text = s.chars from hproper] at hmem
    cases s <;> simp [Symbol.chars] at hmem
  | illegal =>
    obtain ⟨d, rfl, -⟩ := hproper
    obtain ⟨rfl, -⟩ := List.cons.inj htext
    exact hc (List.mem_singleton.mp hmem).symm

/-- What gives a token or a diagnostic starts with a character that is shown. -/
theorem exists_head_of_mem_scan {p : Position} {cs : List Char} {l : Placed} (h : l ∈ scan p cs)
    (hshape : l.lexeme.shape ≠ .newlines) :
    ∃ c, l.lexeme.text.head? = some c ∧ c ≠ '\n' ∧ c ≠ '\r' := by
  obtain ⟨c, more, hblank, hl⟩ := exists_munch_of_mem_scan h
  obtain ⟨tail, htext⟩ := exists_text_munch c more
  have hnewline : '\n' ∉ (munch c more).1.text := newline_not_mem_munch (hl ▸ hshape)
  rw [hl] at htext hnewline
  refine ⟨c, by rw [htext]; rfl, ?_, ?_⟩
  · rintro rfl
    simp [htext] at hnewline
  · rintro rfl
    cases hblank

end Lexeme

/-! ## Lines kept from lexeme to lexeme -/

/-- The line that reading has come to. -/
structure LineStart where
  /-- The number of the line. -/
  line : Nat
  /-- The byte its first character stands at. -/
  offset : Nat

namespace LineStart

/-- The line that a text ends on. -/
def ofText (cs : List Char) : LineStart :=
  ⟨1 + cs.count '\n', utf8Len (pastLines cs)⟩

/-- The line after a lexeme. -/
def after (s : LineStart) (l : Lexeme.Placed) : LineStart :=
  match l.lexeme.shape with
  | .newlines =>
    ⟨s.line + utf8Len l.lexeme.text, l.start.offset + utf8Len l.lexeme.text⟩
  | _ => s

/-- Each lexeme with the line that reading has come to by then. -/
def along (s : LineStart) : List Lexeme.Placed → List (LineStart × Lexeme.Placed)
  | [] => []
  | l :: ls => (s, l) :: (s.after l).along ls

theorem ofText_append {ds : List Char} (hds : '\n' ∉ ds) (cs : List Char) :
    ofText (cs ++ ds) = ofText cs := by
  rw [ofText, List.count_append, List.count_eq_zero.mpr hds, pastLines_append hds]
  rfl

theorem utf8Len_newlines {cs : List Char} (h : ∀ c ∈ cs, c = '\n') :
    utf8Len cs = cs.count '\n' := by
  induction cs with
  | nil => rfl
  | cons c cs ih =>
    obtain ⟨rfl, hcs⟩ := List.forall_mem_cons.mp h
    rw [String.utf8Len_cons, ih hcs, List.count_cons_self]
    rfl

theorem ofText_append_newlines {ds : List Char} (hne : ds ≠ []) (hds : ∀ d ∈ ds, d = '\n')
    (cs : List Char) :
    ofText (cs ++ ds) = ⟨(ofText cs).line + utf8Len ds, utf8Len cs + utf8Len ds⟩ := by
  rcases List.eq_nil_or_concat' ds with rfl | ⟨init, d, rfl⟩
  · exact absurd rfl hne
  obtain rfl : d = '\n' := hds d (by simp)
  have hcount := utf8Len_newlines hds
  rw [ofText, ofText, List.count_append, ← List.append_assoc, pastLines_concat_newline,
    List.append_assoc, String.utf8Len_append, hcount, Nat.add_assoc]

/-- The line after a lexeme is the one that the text ends on by then. -/
theorem ofText_append_lexeme {before gap : List Char} {l : Lexeme.Placed}
    (hgap : ∀ b ∈ gap, Lexeme.isBlank b = true)
    (hstart : l.start = Position.start.past (before ++ gap))
    (hmunch : ∃ c more, (Lexeme.munch c more).1 = l.lexeme) :
    ofText (before ++ gap ++ l.lexeme.text) = (ofText before).after l := by
  have hblank : '\n' ∉ gap := fun h => by
    have := hgap _ h
    rw [Lexeme.isBlank_newline] at this
    exact Bool.false_ne_true this
  obtain ⟨c, more, hl⟩ := hmunch
  obtain ⟨tail, htext⟩ := Lexeme.exists_text_munch c more
  have hproper := Lexeme.proper_munch c more
  have hnewline := @Lexeme.newline_not_mem_munch c more
  rw [hl] at htext hproper hnewline
  unfold after
  split
  · next hshape =>
    rw [Lexeme.Proper, hshape] at hproper
    rw [ofText_append_newlines (by simp [htext]) hproper, ofText_append hblank, hstart,
      Position.offset_start_past]
  · next hshape => rw [ofText_append (hnewline hshape), ofText_append hblank]

end LineStart

namespace Lexeme

/-- A lexeme stands where its position says, on the line that was kept. -/
structure Placed.Exact (cs : List Char) (kept : LineStart) (l : Placed) : Prop where
  /-- The text has the lexeme there. -/
  stands : IsSlice cs l.start.offset l.stop.offset l.lexeme.text
  /-- Line and column are those of the text before. -/
  place : IsPlace cs l.start.offset l.start.line l.start.column
  /-- The line is the one that was kept. -/
  line : l.start.line = kept.line
  /-- What comes before on that line can be cut out of the text, and the column counts it. -/
  column : ∃ ahead, IsSlice cs kept.offset l.start.offset ahead ∧
    l.start.column = 1 + ahead.length

theorem exact_of_start {before gap rest : List Char} {l : Placed}
    (hgap : '\n' ∉ gap) (hstart : l.start = Position.start.past (before ++ gap)) :
    l.Exact (before ++ (gap ++ (l.lexeme.text ++ rest))) (.ofText before) := by
  have hoffset : l.start.offset = utf8Len (before ++ gap) := by
    rw [hstart, Position.offset_start_past]
  have hsource : before ++ (gap ++ (l.lexeme.text ++ rest)) =
      (before ++ gap) ++ (l.lexeme.text ++ rest) := (List.append_assoc _ _ _).symm
  rw [hsource, ← LineStart.ofText_append hgap]
  refine ⟨⟨before ++ gap, rest, rfl, hoffset.symm, ?_⟩, ?_, ?_, lastLine (before ++ gap), ?_, ?_⟩
  · rw [Placed.stop, Position.offset_past, hoffset, String.utf8Len_append]
  · rw [hstart]
    exact Position.isPlace_start_past _ _
  · rw [hstart]
    exact Position.line_start_past _
  · rw [hoffset]
    exact isSlice_pastLines _ _
  · rw [hstart]
    exact Position.column_start_past _

/-- Every lexeme of a text stands where its position says, on the line that was kept. -/
theorem exact_of_mem_along (before cs : List Char) :
    ∀ x ∈ (LineStart.ofText before).along (scan (Position.start.past before) cs),
      x.2.Exact (before ++ cs) x.1 := by
  generalize hp : Position.start.past before = p
  fun_induction scan p cs generalizing before with
  | case1 => simp [LineStart.along]
  | case2 p cs l rest hl ih =>
    obtain ⟨gap, c, more, hgap, rfl, hstart, hmunch⟩ := exists_gap_of_next? hl
    have hplace : l.start = Position.start.past (before ++ gap) := by
      rw [hstart, ← hp, Position.past_append]
    have hblank : '\n' ∉ gap := fun h => by cases hgap _ h
    have hstop : Position.start.past (before ++ gap ++ l.lexeme.text) = l.stop := by
      rw [Position.past_append, ← hplace, Placed.stop]
    have hkept := LineStart.ofText_append_lexeme hgap hplace ⟨c, more, congrArg Prod.fst hmunch⟩
    have hrest := ih (before ++ gap ++ l.lexeme.text) hstop
    rw [hkept] at hrest
    refine List.forall_mem_cons.mpr ⟨exact_of_start hblank hplace, ?_⟩
    simpa using hrest

end Lexeme

end AccessPolicy
