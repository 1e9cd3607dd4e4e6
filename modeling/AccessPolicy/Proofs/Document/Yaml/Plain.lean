import AccessPolicy.Document.Yaml.Plain
import AccessPolicy.Proofs.Document.Yaml.Place
import Mathlib.Data.List.TakeWhile

/-!
# Plain scalars are read back

A text that may be written plain (`Yaml.IsPlain`) is read back as it was, if its line ends after it
and the next one stands further out (`Yaml.plain?_line`), or if it is a single word and a colon that
ends a key follows (`Yaml.plain?_key`).
-/

namespace AccessPolicy.Yaml

/-- The text may be written plain. -/
structure IsPlain (cs : List Char) : Prop where
  printed : ∀ c ∈ cs, isPrinted c = true
  start : startsBadly cs = false
  last : cs.getLast? ≠ some ' '
  mark : holdsMark cs = false

/-- The text starts with a word or is empty, so that nothing in front of it goes on with it. -/
def Resumes (tail : List Char) : Prop :=
  ∀ c ∈ tail.head?, isSpace c = false ∧ c ≠ '#' ∧ c ≠ '\ufeff'

variable {cs ds word after tail : List Char} {c : Char} {n least : Nat} {cur : Cursor} {p : Place}

/-! ## Marks -/

theorem isSpace_of_isPrinted (h : isPrinted c = true) : isSpace c = decide (c = ' ') := by
  have htab : c ≠ '\t' := fun htab => absurd h (by rw [htab]; decide)
  simp [isSpace, isBlank, not_isBreak_of_isPrinted h, htab]

theorem endsWord_cons : endsWord (c :: cs) = isSpace c := rfl

theorem holdsMark_cons_eq_false (h : holdsMark (c :: cs) = false) :
    (c = ':' → ∃ d ds, cs = d :: ds ∧ isBlank d = false) ∧
      (isBlank c = true → cs.head? ≠ some '#') ∧ holdsMark cs = false := by
  simp only [holdsMark, Bool.or_eq_false_iff, Bool.and_eq_false_imp, decide_eq_true_eq] at h
  obtain ⟨⟨hcolon, hsign⟩, hmore⟩ := h
  refine ⟨fun hc => ?_, fun hc hhead => by simpa [hhead] using hsign hc, hmore⟩
  cases cs with
  | nil => exact absurd (hcolon hc) (by simp)
  | cons d ds => exact ⟨d, ds, rfl, by simpa using hcolon hc⟩

theorem holdsMark_append_right (h : holdsMark (cs ++ ds) = false) : holdsMark ds = false := by
  induction cs with
  | nil => exact h
  | cons c cs ih => exact ih (holdsMark_cons_eq_false h).2.2

/-! ## The first character -/

theorem IsPlain.ne_nil (h : IsPlain cs) : cs ≠ [] := by
  rintro rfl
  exact absurd h.start (by decide)

theorem IsPlain.not_mem_indicators (h : IsPlain (c :: cs)) :
    c ∉ indicators := by
  have hstart := h.start
  simp only [startsBadly, Bool.or_eq_false_iff] at hstart
  simpa using hstart.1.1.1.2

/-- A plain text that starts with a question mark, a colon or a dash goes on with a word. -/
theorem IsPlain.endsWord_eq_false (h : IsPlain (c :: cs))
    (hc : c = '?' ∨ c = ':' ∨ c = '-') : endsWord (cs ++ after) = false := by
  have hstart := h.start
  simp only [startsBadly, Bool.or_eq_false_iff] at hstart
  have hnext : (cs.head?.map isBlank).getD true = false := by
    have hmark := hstart.1.1.2
    rw [Bool.and_eq_false_imp] at hmark
    exact hmark (by rcases hc with rfl | rfl | rfl <;> rfl)
  cases cs with
  | nil => simp at hnext
  | cons d ds =>
    have hprinted := h.printed d (List.mem_cons_of_mem c List.mem_cons_self)
    rw [List.cons_append, endsWord_cons, isSpace_eq_false_iff]
    exact ⟨hnext, not_isBreak_of_isPrinted hprinted⟩

theorem IsPlain.startsPlain (h : IsPlain (c :: cs)) :
    startsPlain false (c :: cs ++ after) = true := by
  have hstart := h.start
  simp only [startsBadly, Bool.or_eq_false_iff, decide_eq_false_iff_not] at hstart
  have hspace : isSpace c = false := by
    rw [isSpace_of_isPrinted (h.printed c List.mem_cons_self)]
    simpa using hstart.1.1.1.1
  rw [List.cons_append, Yaml.startsPlain]
  split
  · next hc => simp [h.endsWord_eq_false (.inr (.inr hc))]
  split
  · next hc =>
    simp only [Bool.or_eq_true, decide_eq_true_eq] at hc
    simp [h.endsWord_eq_false (hc.imp_right .inl)]
  · simp [hspace, h.not_mem_indicators]

/-- A plain text starts with a word. -/
theorem IsPlain.resumes (h : IsPlain cs) : Resumes (cs ++ after) := by
  obtain ⟨c, cs, rfl⟩ := List.exists_cons_of_ne_nil h.ne_nil
  intro d hd
  obtain rfl := Option.some.inj hd
  have hprinted := h.printed c List.mem_cons_self
  have hspace : c ≠ ' ' := fun hc => absurd h.start (by rw [hc]; simp [startsBadly])
  refine ⟨by simp [isSpace_of_isPrinted hprinted, hspace], ?_, ?_⟩
  · rintro rfl
    exact h.not_mem_indicators (by decide)
  · rintro rfl
    exact absurd hprinted (by decide)

/-! ## Words -/

/-- No word goes on here. -/
def EndsPlain : List Char → Prop
  | [] => True
  | c :: cs => isSpace c = true ∨ c = ':' ∧ endsWord cs = true

theorem plainWord?_of_endsPlain (h : EndsPlain after) : plainWord? false after = some [] := by
  cases after with
  | nil => rfl
  | cons c cs =>
    rw [plainWord?]
    rcases h with h | ⟨rfl, h⟩
    · rw [if_pos h]
    · simp [h]

theorem plainWord?_append (hprinted : ∀ c ∈ cs, isPrinted c = true) (hmark : holdsMark cs = false)
    (hafter : EndsPlain after) :
    plainWord? false (cs ++ after) = some (cs.takeWhile (!isSpace ·)) := by
  induction cs with
  | nil => exact plainWord?_of_endsPlain hafter
  | cons c cs ih =>
    obtain ⟨hc, hcs⟩ := List.forall_mem_cons.mp hprinted
    obtain ⟨hcolon, -, hmore⟩ := holdsMark_cons_eq_false hmark
    have hword : (c = ':' && endsWord (cs ++ after)) = false := by
      rw [Bool.and_eq_false_imp]
      intro hc
      obtain ⟨d, ds, rfl, hd⟩ := hcolon (by simpa using hc)
      have hprinted := hcs d List.mem_cons_self
      rw [List.cons_append, endsWord_cons, isSpace, hd, not_isBreak_of_isPrinted hprinted]
      rfl
    rw [List.cons_append, plainWord?]
    by_cases hspace : isSpace c = true
    · rw [if_pos hspace, List.takeWhile_cons_of_neg (by simp [hspace])]
    · rw [if_neg hspace, List.takeWhile_cons_of_pos (by simp [hspace]), ih hcs hmore]
      simp [hword]

/-! ## Gaps -/

theorem plainGap?_of_not_isSpace {g : Gap} (h : ∀ c ∈ cs.head?, isSpace c = false) :
    plainGap? least g p cs = some (g, ⟨p, cs⟩) := by
  cases cs with
  | nil => rfl
  | cons c cs => rw [plainGap?, if_pos (by simp [h c rfl])]

theorem plainGap?_spaces {g : Gap} (k : Nat) (h : ∀ c ∈ cs.head?, isSpace c = false) :
    plainGap? least g p (List.replicate k ' ' ++ cs) =
      some ((List.replicate k ' ').foldl Gap.add g, ⟨p.past (List.replicate k ' '), cs⟩) := by
  induction k generalizing g p with
  | zero => exact plainGap?_of_not_isSpace h
  | succ k ih =>
    rw [List.replicate_succ, List.cons_append, plainGap?, if_neg (by decide), ih]
    rfl

theorem foldl_add_blanks (gap : List Char) (k : Nat) :
    (List.replicate k ' ').foldl Gap.add (.blanks gap) =
      .blanks (gap ++ List.replicate k ' ') := by
  induction k generalizing gap with
  | zero => simp
  | succ k ih =>
    have hadd : (Gap.blanks gap).add ' ' = .blanks (gap ++ [' ']) := rfl
    rw [List.replicate_succ, List.foldl_cons, hadd, ih]
    simp

theorem foldl_add_lines (first : Option Char) (more : List Char) (k : Nat) :
    (List.replicate k ' ').foldl Gap.add (.lines first more) = .lines first more := by
  induction k with
  | zero => rfl
  | succ k ih => exact ih

/-! ## The rest of a plain scalar -/

section

variable {flow : Bool} {gap : Gap} {next : Cursor}
  (hgap : plainGap? least .empty cur.place cur.rest = some (gap, next))

include hgap

theorem plainRest?_of_stopsPlain (h : stopsPlain flow least next = true) :
    plainRest? flow least cur = some ⟨[], gap.endsLine, next⟩ := by
  rw [plainRest?]
  split
  · next hnone => simp [hgap] at hnone
  · next hsome =>
    obtain ⟨rfl, rfl⟩ := Prod.mk.inj (Option.some.inj (hgap.symm.trans hsome))
    rw [if_pos h]

theorem plainRest?_of_no_word (h : plainWord? flow next.rest = some []) :
    plainRest? flow least cur = some ⟨[], gap.endsLine, next⟩ := by
  rw [plainRest?]
  split
  · next hnone => simp [hgap] at hnone
  · next hsome =>
    obtain ⟨rfl, rfl⟩ := Prod.mk.inj (Option.some.inj (hgap.symm.trans hsome))
    split
    · rfl
    split
    · next hnone => simp [h] at hnone
    · rfl
    · next hword => simp [h] at hword

theorem plainRest?_of_word (hstops : stopsPlain flow least next = false)
    (h : plainWord? flow next.rest = some (c :: word)) :
    plainRest? flow least cur =
      (plainRest? flow least (next.drop (word.length + 1))).map fun more =>
        { more with text := gap.text ++ c :: word ++ more.text } := by
  rw [plainRest?]
  split
  · next hnone => simp [hgap] at hnone
  · next hsome =>
    obtain ⟨rfl, rfl⟩ := Prod.mk.inj (Option.some.inj (hgap.symm.trans hsome))
    rw [if_neg (by simp [hstops])]
    split
    · next hnone => simp [h] at hnone
    · next hword => simp [h] at hword
    · next hword =>
      obtain ⟨rfl, rfl⟩ := List.cons.inj (Option.some.inj (h.symm.trans hword))
      rfl

end

theorem plainRest?_newline (hrest : cur.rest = '\n' :: (List.replicate n ' ' ++ tail))
    (hn : n < least) (htail : Resumes tail) :
    plainRest? false least cur =
      some ⟨[], true, ⟨cur.place.past ('\n' :: List.replicate n ' '), tail⟩⟩ := by
  have hnewline : Gap.empty.add '\n' = .lines (some '\n') [] := rfl
  have hgap : plainGap? least .empty cur.place cur.rest =
      some (.lines (some '\n') [], ⟨cur.place.past ('\n' :: List.replicate n ' '), tail⟩) := by
    rw [hrest, plainGap?, if_neg (by decide), if_neg (by simp), hnewline,
      plainGap?_spaces n fun c hc => (htail c hc).1, foldl_add_lines]
    rfl
  have hcolumn := Place.column_past_margin cur.place n
  exact plainRest?_of_stopsPlain hgap (by simp [stopsPlain, -Place.past_cons, hcolumn, hn])

theorem plainRest?_colon (hrest : cur.rest = ':' :: after) (hafter : endsWord after = true) :
    plainRest? false least cur = some ⟨[], false, cur⟩ := by
  have hgap : plainGap? least .empty cur.place cur.rest = some (.empty, cur) := by
    rw [plainGap?_of_not_isSpace (by rw [hrest]; simp; decide)]
  refine plainRest?_of_no_word hgap (plainWord?_of_endsPlain ?_)
  rw [hrest]
  exact .inr ⟨rfl, hafter⟩

theorem not_of_mem_head?_dropWhile {p : Char → Bool} (h : c ∈ (cs.dropWhile p).head?) :
    p c = false := by
  have hnot := List.head?_dropWhile_not p cs
  rw [Option.mem_def.mp h] at hnot
  exact hnot

theorem eq_space_of_mem_head? (hprinted : ∀ c ∈ cs, isPrinted c = true) :
    ∀ c ∈ (cs.dropWhile (!isSpace ·)).head?, c = ' ' := by
  intro c hc
  have hspace := not_of_mem_head?_dropWhile hc
  rw [isSpace_of_isPrinted
    (hprinted c ((List.dropWhile_sublist _).mem (List.mem_of_mem_head? hc)))] at hspace
  simpa using hspace

/-- A text that does not end with a space is spaces, a word and more of the kind. -/
theorem exists_spaces_word (hprinted : ∀ c ∈ cs, isPrinted c = true) (hne : cs ≠ [])
    (hlast : cs.getLast? ≠ some ' ') :
    ∃ k c word more, cs = List.replicate k ' ' ++ c :: (word ++ more) ∧ isSpace c = false ∧
      (c :: (word ++ more)).takeWhile (!isSpace ·) = c :: word ∧ ∀ d ∈ more.head?, d = ' ' := by
  have hspaces : cs.takeWhile isSpace = List.replicate (cs.takeWhile isSpace).length ' ' := by
    refine List.eq_replicate_of_mem fun c hc => ?_
    have hspace := List.mem_takeWhile_imp hc
    rw [isSpace_of_isPrinted (hprinted c ((List.takeWhile_sublist _).mem hc))] at hspace
    exact of_decide_eq_true hspace
  have hsplit := List.takeWhile_append_dropWhile (p := isSpace) (l := cs)
  cases hrest : cs.dropWhile isSpace with
  | nil =>
    rw [hrest, List.append_nil] at hsplit
    rw [← hsplit, hspaces, List.getLast?_replicate, if_neg (by simpa [hsplit] using hne)] at hlast
    exact absurd rfl hlast
  | cons c rest =>
    have hc : c ∈ (cs.dropWhile isSpace).head? := by rw [hrest]; rfl
    have hc := not_of_mem_head?_dropWhile hc
    refine ⟨(cs.takeWhile isSpace).length, c, rest.takeWhile (!isSpace ·),
      rest.dropWhile (!isSpace ·), ?_, hc, ?_, ?_⟩
    · rw [← hspaces, List.takeWhile_append_dropWhile, ← hrest, hsplit]
    · rw [List.takeWhile_append_dropWhile, List.takeWhile_cons_of_pos (by simp [hc])]
    · refine eq_space_of_mem_head? fun d hd => hprinted d ?_
      rw [← hsplit, hrest]
      exact List.mem_append_right _ (List.mem_cons_of_mem c hd)

/-- Spaces and a word are read, and what is left after the word is read as more of the scalar. -/
theorem plainRest?_spaces_word {k : Nat} {more : List Char}
    (hprinted : ∀ d ∈ List.replicate (k + 1) ' ' ++ c :: (word ++ more), isPrinted d = true)
    (hmark : holdsMark (List.replicate (k + 1) ' ' ++ c :: (word ++ more)) = false)
    (hc : isSpace c = false) (htake : (c :: (word ++ more)).takeWhile (!isSpace ·) = c :: word)
    (hcolumn : least ≤ cur.place.column) (hafter : EndsPlain after)
    (hrest : cur.rest = List.replicate (k + 1) ' ' ++ c :: (word ++ more) ++ after) :
    plainRest? false least cur =
      (plainRest? false least
        ⟨cur.place.past (List.replicate (k + 1) ' ' ++ c :: word), more ++ after⟩).map
        fun r => { r with text := List.replicate (k + 1) ' ' ++ c :: word ++ r.text } := by
  obtain ⟨hspaces, hword⟩ := List.forall_mem_append.mp hprinted
  have hgap : plainGap? least .empty cur.place cur.rest =
      some (.blanks (List.replicate (k + 1) ' '),
        ⟨cur.place.past (List.replicate (k + 1) ' '), c :: (word ++ more) ++ after⟩) := by
    rw [hrest, List.append_assoc, plainGap?_spaces (k + 1) (by simpa using hc)]
    exact congrArg (fun g => some (g, _)) (foldl_add_blanks [] (k + 1))
  have hread : plainWord? false (c :: (word ++ more) ++ after) = some (c :: word) := by
    rw [plainWord?_append hword (holdsMark_append_right hmark) hafter, htake]
  have hsign : c ≠ '#' := fun hsign => by
    rw [List.replicate_succ', List.append_assoc, List.singleton_append] at hmark
    exact (holdsMark_cons_eq_false (holdsMark_append_right hmark)).2.1 rfl (congrArg some hsign)
  have hplace : (cur.place.past (List.replicate (k + 1) ' ')).column =
      cur.place.column + (k + 1) := by
    rw [Place.column_past fun d hd => not_isBreak_of_isPrinted (hspaces d hd),
      List.length_replicate]
  have hstops : stopsPlain false least ⟨cur.place.past (List.replicate (k + 1) ' '),
      c :: (word ++ more) ++ after⟩ = false := by
    rw [stopsPlain, Cursor.isAnyMarker_of_column (by simp only [hplace]; omega)]
    simp only [hplace]
    simp [hsign]
    omega
  have hdrop : Cursor.drop ⟨cur.place.past (List.replicate (k + 1) ' '),
      c :: (word ++ more) ++ after⟩ (word.length + 1) =
      ⟨cur.place.past (List.replicate (k + 1) ' ' ++ c :: word), more ++ after⟩ := by
    rw [← List.cons_append, List.append_assoc, Place.past_append]
    exact Cursor.drop_append
  rw [plainRest?_of_word hgap hstops hread, hdrop]
  rfl

/-- What is left of a plain scalar after a word is spaces and words up to the end of the line. -/
theorem plainRest?_line (hprinted : ∀ c ∈ cs, isPrinted c = true)
    (hstart : ∀ c ∈ cs.head?, c = ' ') (hlast : cs.getLast? ≠ some ' ')
    (hmark : holdsMark cs = false) (hcolumn : least ≤ cur.place.column)
    (hrest : cur.rest = cs ++ '\n' :: (List.replicate n ' ' ++ tail)) (hn : n < least)
    (htail : Resumes tail) :
    plainRest? false least cur =
      some ⟨cs, true, ⟨cur.place.past (cs ++ '\n' :: List.replicate n ' '), tail⟩⟩ := by
  induction hlength : cs.length using Nat.strongRecOn generalizing cs cur with
  | _ length ih =>
    by_cases hne : cs = []
    · subst hne
      exact plainRest?_newline hrest hn htail
    · obtain ⟨k, c, word, more, rfl, hc, htake, hmore⟩ := exists_spaces_word hprinted hne hlast
      obtain ⟨k, rfl⟩ : ∃ j, k = j + 1 := by
        cases k with
        | zero => exact absurd (hstart c rfl) (by rintro rfl; exact absurd hc (by decide))
        | succ j => exact ⟨j, rfl⟩
      have hsplit : List.replicate (k + 1) ' ' ++ c :: (word ++ more) =
          List.replicate (k + 1) ' ' ++ c :: word ++ more := by simp
      have hends : EndsPlain ('\n' :: (List.replicate n ' ' ++ tail)) := .inl rfl
      rw [plainRest?_spaces_word hprinted hmark hc htake hcolumn hends hrest]
      rw [hsplit] at hprinted hlast hmark
      obtain ⟨hwordprinted, hmoreprinted⟩ := List.forall_mem_append.mp hprinted
      have hmorelast : more.getLast? ≠ some ' ' := fun hmorelast => hlast (by
        rw [List.getLast?_append, hmorelast]
        rfl)
      have hmorecolumn :
          least ≤ (cur.place.past (List.replicate (k + 1) ' ' ++ c :: word)).column := by
        rw [Place.column_past fun d hd => not_isBreak_of_isPrinted (hwordprinted d hd)]
        omega
      have hless : more.length < length := by
        rw [← hlength]
        simp only [List.length_append, List.length_cons]
        omega
      rw [ih more.length hless hmoreprinted hmore hmorelast (holdsMark_append_right hmark)
        hmorecolumn rfl rfl]
      simp [Place.past_append]

/-! ## Plain scalars -/

/-- A plain scalar that ends with its line is read back, and the cursor is on the next word. -/
theorem plain?_line (h : IsPlain cs) (hcolumn : least ≤ cur.place.column)
    (hrest : cur.rest = cs ++ '\n' :: (List.replicate n ' ' ++ tail)) (hn : n < least)
    (htail : Resumes tail) :
    plain? false least cur =
      some ⟨cs, true, ⟨cur.place.past (cs ++ '\n' :: List.replicate n ' '), tail⟩⟩ := by
  have hsplit := List.takeWhile_append_dropWhile (p := (!isSpace ·)) (l := cs)
  have hends : EndsPlain ('\n' :: (List.replicate n ' ' ++ tail)) := .inl rfl
  have hdrop : cur.drop (cs.takeWhile (!isSpace ·)).length =
      ⟨cur.place.past (cs.takeWhile (!isSpace ·)),
        cs.dropWhile (!isSpace ·) ++ '\n' :: (List.replicate n ' ' ++ tail)⟩ := by
    rw [← Cursor.drop_append, ← List.append_assoc, hsplit, ← hrest]
  have hwordbreak : ∀ c ∈ cs.takeWhile (!isSpace ·), isBreak c = false := fun c hc =>
    not_isBreak_of_isPrinted (h.printed c ((List.takeWhile_sublist _).mem hc))
  have hmorecolumn : least ≤ (cur.place.past (cs.takeWhile (!isSpace ·))).column := by
    rw [Place.column_past hwordbreak]
    omega
  have hmoreprinted : ∀ c ∈ cs.dropWhile (!isSpace ·), isPrinted c = true := fun c hc =>
    h.printed c ((List.dropWhile_sublist _).mem hc)
  have hmorelast : (cs.dropWhile (!isSpace ·)).getLast? ≠ some ' ' := fun hmorelast => h.last (by
    rw [← hsplit, List.getLast?_append, hmorelast]
    rfl)
  have hmoremark : holdsMark (cs.dropWhile (!isSpace ·)) = false := by
    have hmark := h.mark
    rw [← hsplit] at hmark
    exact holdsMark_append_right hmark
  rw [plain?, hrest, plainWord?_append h.printed h.mark hends]
  simp only [hdrop]
  rw [plainRest?_line hmoreprinted (eq_space_of_mem_head? h.printed) hmorelast hmoremark hmorecolumn
    rfl hn htail]
  simp only [Option.map_some, ← Place.past_append, ← List.append_assoc, hsplit]

/-- A word is read back as a plain scalar in front of a colon that ends a key. -/
theorem plain?_key (hprinted : ∀ c ∈ cs, isPrinted c = true) (hspace : ∀ c ∈ cs, isSpace c = false)
    (hmark : holdsMark cs = false) (hrest : cur.rest = cs ++ ':' :: after)
    (hafter : endsWord after = true) :
    plain? false least cur = some ⟨cs, false, ⟨cur.place.past cs, ':' :: after⟩⟩ := by
  have hends : EndsPlain (':' :: after) := .inr ⟨rfl, hafter⟩
  have hdrop : cur.drop cs.length = ⟨cur.place.past cs, ':' :: after⟩ := by
    rw [Cursor.drop, hrest, List.take_left, List.drop_left]
  have htake : cs.takeWhile (!isSpace ·) = cs :=
    List.takeWhile_eq_self_iff.mpr fun c hc => by simp [hspace c hc]
  rw [plain?, hrest, plainWord?_append hprinted hmark hends, htake]
  simp only [hdrop]
  rw [plainRest?_colon rfl hafter]
  simp

end AccessPolicy.Yaml
