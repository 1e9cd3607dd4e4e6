import AccessPolicy.Proofs.Span
import AccessPolicy.Text.Lines
import AccessPolicy.Text.Position
import Mathlib.Data.List.DropRight
import Mathlib.Data.List.TakeWhile

/-!
# Lines and positions

A position counts as it goes. What it has counted can be told from the text before it : the line
feeds, and the characters since the last of them (`Position.line_start_past`,
`Position.column_start_past`).

The lines of a text for display are cut in another way and lose the characters at their ends, but
the two agree : a character that is no line feed and no carriage return is found in the line of its
number, at the place of its column (`exists_line_textLines`).

Where no line has a line feed, a text made of lines that are each ended by one has only these lines
(`join_lines_inj`).
-/

namespace AccessPolicy

/-- The characters of a text since its last line feed. -/
def lastLine (cs : List Char) : List Char :=
  cs.rtakeWhile (· ≠ '\n')

/-- A text up to its last line feed. -/
def pastLines (cs : List Char) : List Char :=
  cs.rdropWhile (· ≠ '\n')

theorem pastLines_append_lastLine (cs : List Char) : pastLines cs ++ lastLine cs = cs :=
  List.rdropWhile_append_rtakeWhile

theorem lastLine_concat_newline (cs : List Char) : lastLine (cs ++ ['\n']) = [] :=
  List.rtakeWhile_concat_neg _ _ _ (by simp)

theorem lastLine_concat {c : Char} (hc : c ≠ '\n') (cs : List Char) :
    lastLine (cs ++ [c]) = lastLine cs ++ [c] :=
  List.rtakeWhile_concat_pos _ _ _ (by simpa using hc)

theorem pastLines_concat_newline (cs : List Char) : pastLines (cs ++ ['\n']) = cs ++ ['\n'] :=
  List.rdropWhile_concat_neg _ _ _ (by simp)

theorem pastLines_append {ds : List Char} (hds : '\n' ∉ ds) (cs : List Char) :
    pastLines (cs ++ ds) = pastLines cs := by
  induction ds using List.reverseRecOn with
  | nil => rw [List.append_nil]
  | append_singleton ds d ih =>
    have hd : d ≠ '\n' := by
      rintro rfl
      simp at hds
    rw [← List.append_assoc, pastLines, List.rdropWhile_concat_pos _ _ _ (by simpa using hd)]
    exact ih fun h => hds (List.mem_append_left _ h)

/-- Only the text after a line feed matters for what comes after the last. -/
theorem lastLine_append_newline (cs ds : List Char) :
    lastLine (cs ++ '\n' :: ds) = lastLine ds := by
  induction ds using List.reverseRecOn with
  | nil => exact lastLine_concat_newline cs
  | append_singleton ds d ih =>
    rw [← List.cons_append, ← List.append_assoc]
    by_cases hd : d = '\n'
    · rw [hd, lastLine_concat_newline, lastLine_concat_newline]
    · rw [lastLine_concat hd, lastLine_concat hd, ih]

theorem lastLine_of_not_mem {cs : List Char} (h : '\n' ∉ cs) : lastLine cs = cs := by
  refine List.rtakeWhile_eq_self_iff.mpr fun c hc => ?_
  have : c ≠ '\n' := ne_of_mem_of_not_mem hc h
  simpa using this

/-! ## Positions -/

namespace Position

theorem line_start_past (cs : List Char) : (start.past cs).line = 1 + cs.count '\n' := by
  induction cs using List.reverseRecOn with
  | nil => rfl
  | append_singleton cs c ih =>
    rw [past_append, past_cons, past_nil, List.count_append, step]
    split
    · next hc =>
      subst hc
      simp only [ih, List.count_singleton_self]
      omega
    · next hc =>
      rw [List.count_singleton, if_neg (by simpa using hc)]
      exact ih

theorem column_start_past (cs : List Char) :
    (start.past cs).column = 1 + (lastLine cs).length := by
  induction cs using List.reverseRecOn with
  | nil => rfl
  | append_singleton cs c ih =>
    rw [past_append, past_cons, past_nil, step]
    split
    · next hc =>
      subst hc
      rw [lastLine_concat_newline]
      rfl
    · next hc =>
      rw [lastLine_concat hc, List.length_append, ← Nat.add_assoc, ← ih]
      rfl

end Position

/-! ## Lines for display -/

theorem textLines_of_not_mem {cs : List Char} (hne : cs ≠ []) (h : '\n' ∉ cs) :
    textLines cs = [cs] := by
  have hspan : cs.dropWhile (· ≠ '\n') = [] :=
    List.dropWhile_eq_nil_iff.mpr fun c hc => by simpa using ne_of_mem_of_not_mem hc h
  rw [textLines, if_neg hne]
  split
  · rfl
  · next hmore =>
    rw [hspan] at hmore
    exact absurd hmore (List.cons_ne_nil _ _).symm

theorem textLines_append_newline {ds : List Char} (h : '\n' ∉ ds) (rest : List Char) :
    textLines (ds ++ '\n' :: rest) = dropReturn ds :: textLines rest := by
  have hds : ∀ d ∈ ds, decide (d ≠ '\n') = true := fun d hd => by
    simpa using ne_of_mem_of_not_mem hd h
  have hend : ∀ d ∈ ('\n' :: rest).head?, decide (d ≠ '\n') = false := by simp
  rw [textLines, if_neg (by simp)]
  split
  · next hnil =>
    rw [dropWhile_append_of_head? hds hend] at hnil
    exact absurd hnil (List.cons_ne_nil _ _)
  · next hmore =>
    rw [dropWhile_append_of_head? hds hend] at hmore
    obtain ⟨-, rfl⟩ := List.cons.inj hmore
    rw [takeWhile_append_of_head? hds hend]

/-- A line keeps all its characters but a carriage return at its end. -/
theorem getElem?_dropReturn {before after : List Char} {c : Char} (hc : c ≠ '\r') :
    (dropReturn (before ++ c :: after))[before.length]? = some c := by
  unfold dropReturn
  split
  · next hlast =>
    cases after with
    | nil => simp [hc] at hlast
    | cons d after =>
      rw [List.dropLast_append_of_ne_nil (List.cons_ne_nil _ _), List.dropLast_cons_cons,
        List.getElem?_append_right (Nat.le_refl _), Nat.sub_self]
      rfl
  · rw [List.getElem?_append_right (Nat.le_refl _), Nat.sub_self]
    rfl

theorem not_mem_dropReturn {ds : List Char} (h : '\n' ∉ ds) : '\n' ∉ dropReturn ds := by
  unfold dropReturn
  split
  · exact fun hmem => h ((List.dropLast_sublist ds).subset hmem)
  · exact h

/-- A character of a text is found in the lines of the text where its position says. The characters
that end lines are not shown and so excepted. -/
theorem exists_line_textLines (before after : List Char) {c : Char} (hc : c ≠ '\n')
    (hreturn : c ≠ '\r') :
    ∃ row, (textLines (before ++ c :: after))[before.count '\n']? = some row ∧ '\n' ∉ row ∧
      row[(lastLine before).length]? = some c := by
  by_cases hbefore : '\n' ∈ before
  · -- The first line is not that of the character, and the others are those of the text after it.
    obtain ⟨ds, more, hsplit, hds⟩ := List.eq_append_cons_of_mem hbefore
    obtain ⟨row, hrow, hshown⟩ := exists_line_textLines more after hc hreturn
    have hcount : before.count '\n' = more.count '\n' + 1 := by
      rw [hsplit, List.count_append, List.count_eq_zero.mpr hds, List.count_cons_self,
        Nat.zero_add]
    refine ⟨row, ?_, by rwa [hsplit, lastLine_append_newline]⟩
    rw [hcount, hsplit, List.append_assoc, List.cons_append, textLines_append_newline hds]
    exact hrow
  · rw [lastLine_of_not_mem hbefore, List.count_eq_zero.mpr hbefore]
    by_cases hafter : '\n' ∈ after
    · obtain ⟨ds, more, rfl, hds⟩ := List.eq_append_cons_of_mem hafter
      have hfirst : '\n' ∉ before ++ c :: ds := by simp [hbefore, hds, Ne.symm hc]
      have hlines := textLines_append_newline hfirst more
      rw [List.append_assoc, List.cons_append] at hlines
      exact ⟨_, congrArg (·[0]?) hlines, not_mem_dropReturn hfirst, getElem?_dropReturn hreturn⟩
    · have hall : '\n' ∉ before ++ c :: after := by simp [hbefore, hafter, Ne.symm hc]
      refine ⟨_, congrArg (·[0]?) (textLines_of_not_mem (by simp) hall), hall, ?_⟩
      rw [List.getElem?_append_right (Nat.le_refl _), Nat.sub_self]
      rfl
termination_by before.length
decreasing_by
  rw [hsplit, List.length_append, List.length_cons]
  omega

/-! ## Lines that are put together -/

/-- Lines without line feeds can be told apart when each is ended by one. -/
theorem join_lines_inj {as bs : List String} (has : ∀ s ∈ as, '\n' ∉ s.toList)
    (hbs : ∀ s ∈ bs, '\n' ∉ s.toList)
    (h : String.join (as.map (· ++ "\n")) = String.join (bs.map (· ++ "\n"))) : as = bs := by
  have hcons : ∀ (s : String) (ss : List String), (String.join ((s :: ss).map (· ++ "\n"))).toList =
      s.toList ++ '\n' :: (String.join (ss.map (· ++ "\n"))).toList := by
    intro s ss
    rw [List.map_cons, String.join_cons, String.toList_append, String.toList_append,
      List.append_assoc]
    rfl
  have hline : ∀ s : String, '\n' ∉ s.toList → ∀ c ∈ s.toList, decide (c ≠ '\n') = true :=
    fun s hs c hc => decide_eq_true (ne_of_mem_of_not_mem hc hs)
  have hend : ∀ cs : List Char, ∀ c ∈ ('\n' :: cs).head?, decide (c ≠ '\n') = false := by simp
  induction as generalizing bs with
  | nil =>
    cases bs with
    | nil => rfl
    | cons b bs => simpa [hcons] using congrArg String.toList h
  | cons a as ih =>
    cases bs with
    | nil => simpa [hcons] using congrArg String.toList h
    | cons b bs =>
      obtain ⟨ha, has⟩ := List.forall_mem_cons.mp has
      obtain ⟨hb, hbs⟩ := List.forall_mem_cons.mp hbs
      have htext := congrArg String.toList h
      rw [hcons, hcons] at htext
      have hfirst := congrArg (List.takeWhile fun c => decide (c ≠ '\n')) htext
      rw [takeWhile_append_of_head? (hline a ha) (hend _),
        takeWhile_append_of_head? (hline b hb) (hend _)] at hfirst
      have hmore := congrArg (List.dropWhile fun c => decide (c ≠ '\n')) htext
      rw [dropWhile_append_of_head? (hline a ha) (hend _),
        dropWhile_append_of_head? (hline b hb) (hend _)] at hmore
      rw [String.toList_inj.mp hfirst,
        ih has hbs (String.toList_inj.mp (List.cons.inj hmore).2)]

end AccessPolicy
