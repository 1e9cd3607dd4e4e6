import AccessPolicy.Document.Yaml.Cursor
import Mathlib.Data.List.Basic

/-!
# Columns, lines and offsets of a YAML text

Characters that end no line move a place to the right on its line (`Yaml.Place.column_past`), and
after a line feed the column is what has been passed since (`Yaml.Place.column_past_newline`).
-/

namespace AccessPolicy.Yaml

/-! ## Characters -/

theorem isSpace_eq_false_iff {c : Char} :
    isSpace c = false ↔ isBlank c = false ∧ isBreak c = false := by
  rw [isSpace, Bool.or_eq_false_iff]

theorem isBlank_eq_false_iff {c : Char} : isBlank c = false ↔ c ≠ ' ' ∧ c ≠ '\t' := by
  simp [isBlank]

theorem isBreak_of_isBlank {c : Char} (h : isBlank c = true) : isBreak c = false := by
  simp only [isBlank, Bool.or_eq_true, decide_eq_true_eq] at h
  rcases h with rfl | rfl <;> decide

theorem not_isBreak_of_isPrinted {c : Char} (h : isPrinted c = true) : isBreak c = false := by
  simp only [isPrinted, Bool.not_eq_true', Bool.or_eq_false_iff] at h
  exact h.1.1.1.2

namespace Place

variable {p : Place} {cs ds : List Char} {c : Char}

@[simp] theorem past_nil : p.past [] = p := rfl

@[simp] theorem past_cons : p.past (c :: cs) = (p.step c).past cs := rfl

theorem past_append : p.past (cs ++ ds) = (p.past cs).past ds :=
  List.foldl_append

theorem step_of_not_isBreak (h : isBreak c = false) :
    p.step c = ⟨p.offset + c.utf8Size, p.line, p.column + 1⟩ := by
  rw [step, if_neg (by simp [h])]

theorem column_past (h : ∀ c ∈ cs, isBreak c = false) :
    (p.past cs).column = p.column + cs.length := by
  induction cs generalizing p with
  | nil => rfl
  | cons c cs ih =>
    obtain ⟨hc, hcs⟩ := List.forall_mem_cons.mp h
    rw [past_cons, ih hcs, step_of_not_isBreak hc, List.length_cons]
    exact (Nat.add_assoc _ _ _).trans (congrArg _ (Nat.add_comm _ _))

theorem line_past (h : ∀ c ∈ cs, isBreak c = false) : (p.past cs).line = p.line := by
  induction cs generalizing p with
  | nil => rfl
  | cons c cs ih =>
    obtain ⟨hc, hcs⟩ := List.forall_mem_cons.mp h
    rw [past_cons, ih hcs, step_of_not_isBreak hc]

theorem offset_past_le : (p.past cs).offset ≤ p.offset + 4 * cs.length := by
  induction cs generalizing p with
  | nil => exact Nat.le_refl _
  | cons c cs ih =>
    have hstep : (p.step c).offset = p.offset + c.utf8Size := by
      unfold step
      split <;> rfl
    have hsize := c.utf8Size_le_four
    have hmore := ih (p := p.step c)
    rw [past_cons, List.length_cons]
    omega

theorem line_le_past : p.line ≤ (p.past cs).line := by
  induction cs generalizing p with
  | nil => exact Nat.le_refl _
  | cons c cs ih =>
    refine Nat.le_trans ?_ ih
    unfold step
    split
    · exact Nat.le_succ _
    · exact Nat.le_refl _

theorem line_lt_past_newline : p.line < (p.past ('\n' :: cs)).line :=
  Nat.lt_of_lt_of_le (Nat.lt_succ_self p.line) (line_le_past (p := p.step '\n'))

/-- After a line feed the column is what has been passed since. -/
theorem column_past_newline (h : ∀ c ∈ cs, isBreak c = false) :
    (p.past ('\n' :: cs)).column = cs.length := by
  rw [past_cons, column_past h]
  exact Nat.zero_add _

theorem column_past_margin (p : Place) (n : Nat) :
    (p.past ('\n' :: List.replicate n ' ')).column = n := by
  rw [column_past_newline fun c hc => by rw [List.eq_of_mem_replicate hc]; rfl,
    List.length_replicate]

end Place

/-- A document marker stands at the beginning of its line. -/
theorem Cursor.isAnyMarker_of_column {cur : Cursor} (h : cur.place.column ≠ 0) :
    cur.isAnyMarker = false := by
  simp [isAnyMarker, isMarker, h]

theorem Cursor.drop_append {p : Place} {cs rest : List Char} :
    drop ⟨p, cs ++ rest⟩ cs.length = ⟨p.past cs, rest⟩ := by
  rw [drop, List.take_left, List.drop_left]

end AccessPolicy.Yaml
