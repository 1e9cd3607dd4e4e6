import AccessPolicy.Proofs.Source.Spelling
import Mathlib.Data.List.TakeWhile

/-!
# Patterns of lexemes

Each shape of lexeme but one has a pattern, the texts it can have (`Lexeme.Shape.Pattern`). The one
without is what stands where no pattern matches. `Lexeme.munch` takes the longest match of any
pattern, or a single character if there is none (`Lexeme.longest_munch`). No text matches two
patterns (`Lexeme.Shape.eq_of_pattern`), so which of two matches of one length to take is never a
question.
-/

namespace AccessPolicy

namespace Lexeme

/-! ## Patterns -/

/-- The characters `[A-Za-z_]`. -/
def IsLetter (c : Char) : Prop :=
  'A' ≤ c ∧ c ≤ 'Z' ∨ 'a' ≤ c ∧ c ≤ 'z' ∨ c = '_'

/-- The characters `[0-9]`. -/
def IsDecimal (c : Char) : Prop :=
  '0' ≤ c ∧ c ≤ '9'

/-- The texts that match the pattern of a shape. -/
def Shape.Pattern : Shape → List Char → Prop
  | newlines, cs => cs ≠ [] ∧ ∀ c ∈ cs, c = '\n'
  | word, cs => ∃ c ds, cs = c :: ds ∧ IsLetter c ∧ ∀ d ∈ ds, IsLetter d ∨ IsDecimal d
  | digits, cs => cs ≠ [] ∧ ∀ c ∈ cs, IsDecimal c
  | quoted, cs => ∃ ds, cs = '"' :: ds ++ ['"'] ∧ ∀ d ∈ ds, d ≠ '"' ∧ d ≠ '\n'
  | unterminated, cs => ∃ ds, cs = '"' :: ds ∧ ∀ d ∈ ds, d ≠ '"' ∧ d ≠ '\n'
  | symbol s, cs => cs = s.chars
  | illegal, _ => False

/-- The lexeme is the longest match of any pattern where `rest` follows it, and the only one of that
length, or it is a single character where no pattern matches. -/
def Longest (l : Lexeme) (rest : List Char) : Prop :=
  (l.shape.Pattern l.text ∧ ∀ (s : Shape) (t : List Char), s.Pattern t → t <+: l.text ++ rest →
    ⟨s, t⟩ = l ∨ t.length < l.text.length) ∨
  (l.shape = .illegal ∧ l.text.length = 1 ∧
    ∀ (s : Shape) (t : List Char), s.Pattern t → ¬ t <+: l.text ++ rest)

/-! ## Classes of characters -/

theorem isDigit_iff {c : Char} : c.isDigit = true ↔ IsDecimal c := by
  rw [Char.isDigit, Bool.and_eq_true, decide_eq_true_eq, decide_eq_true_eq]
  exact Iff.rfl

theorem isWordStart_iff {c : Char} : isWordStart c = true ↔ IsLetter c := by
  have hupper : c.isUpper = true ↔ 'A' ≤ c ∧ c ≤ 'Z' := decide_eq_true_iff
  have hlower : c.isLower = true ↔ 'a' ≤ c ∧ c ≤ 'z' := by
    have hbounds : c.isLower = (decide ('a' ≤ c) && decide (c ≤ 'z')) := rfl
    rw [hbounds, Bool.and_eq_true, decide_eq_true_eq, decide_eq_true_eq]
  have hletter : c.isAlpha = (c.isUpper || c.isLower) := rfl
  simp only [isWordStart, hletter, Bool.or_eq_true, decide_eq_true_eq, hupper, hlower, IsLetter,
    or_assoc]

theorem isWordPart_iff {c : Char} : isWordPart c = true ↔ IsLetter c ∨ IsDecimal c := by
  rw [← isWordStart_iff, ← isDigit_iff]
  simp only [isWordPart, isWordStart, Char.isAlphanum, Bool.or_eq_true, or_right_comm]

theorem isStringPart_iff {c : Char} : isStringPart c = true ↔ c ≠ '"' ∧ c ≠ '\n' := by
  simp [isStringPart]

/-! ## Lexemes match their patterns -/

theorem Proper.pattern {l : Lexeme} (hl : l.Proper) (htext : l.text ≠ [])
    (hshape : l.shape ≠ .illegal) : l.shape.Pattern l.text := by
  obtain ⟨shape, text⟩ := l
  cases shape with
  | newlines => exact ⟨htext, hl⟩
  | word =>
    obtain ⟨c, cs, hchars, hc, hcs⟩ := exists_cons_of_isWord hl
    rw [String.toList_ofList] at hchars
    exact ⟨c, cs, hchars, isWordStart_iff.mp hc, fun d hd => isWordPart_iff.mp (hcs d hd)⟩
  | digits => exact ⟨htext, fun c hc => isDigit_iff.mp (hl c hc)⟩
  | quoted | unterminated =>
    obtain ⟨cs, hchars, hcs⟩ := hl
    exact ⟨cs, hchars, fun d hd => isStringPart_iff.mp (hcs d hd)⟩
  | symbol s => exact hl
  | illegal => exact absurd rfl hshape

/-- A text that matches a pattern is one lexeme of that shape. -/
theorem munch_of_pattern {s : Shape} {c : Char} {cs : List Char} (h : s.Pattern (c :: cs)) :
    munch c cs = (⟨s, c :: cs⟩, []) := by
  have hend : ∀ {p : Char → Prop}, ∀ d ∈ ([] : List Char).head?, p d := by simp
  cases s with
  | newlines =>
    obtain ⟨rfl, hcs⟩ := List.forall_mem_cons.mp h.2
    have hspan : ∀ d ∈ cs, decide (d = '\n') = true := by simpa using hcs
    rw [munch_newline, List.takeWhile_eq_self_iff.mpr hspan, List.dropWhile_eq_nil_iff.mpr hspan]
  | word =>
    obtain ⟨_, _, hchars, hc, hcs⟩ := h
    obtain ⟨rfl, rfl⟩ := List.cons.inj hchars
    have hspan : ∀ d ∈ cs, isWordPart d = true := fun d hd => isWordPart_iff.mpr (hcs d hd)
    simpa using munch_word (isWordStart_iff.mpr hc) hspan hend
  | digits =>
    obtain ⟨hc, hcs⟩ := List.forall_mem_cons.mp h.2
    have hspan : ∀ d ∈ cs, d.isDigit = true := fun d hd => isDigit_iff.mpr (hcs d hd)
    simpa using munch_digits (isDigit_iff.mpr hc) hspan hend
  | quoted =>
    obtain ⟨ds, hchars, hds⟩ := h
    obtain ⟨rfl, rfl⟩ := List.cons.inj hchars
    exact munch_quoted fun d hd => isStringPart_iff.mpr (hds d hd)
  | unterminated =>
    obtain ⟨ds, hchars, hds⟩ := h
    obtain ⟨rfl, rfl⟩ := List.cons.inj hchars
    simpa using munch_unterminated (fun d hd => isStringPart_iff.mpr (hds d hd)) hend
  | symbol s =>
    have h : c :: cs = s.chars := h
    obtain ⟨c', cs', hchars, -, hmunch⟩ := @exists_munch_symbol s [] fun _ => hend
    rw [List.append_nil, ← h] at hchars
    obtain ⟨rfl, rfl⟩ := List.cons.inj hchars
    rw [hmunch, h]
  | illegal => exact False.elim h

theorem Shape.ne_nil_of_pattern {s : Shape} {cs : List Char} (h : s.Pattern cs) : cs ≠ [] := by
  rintro rfl
  cases s with
  | newlines | digits => exact h.1 rfl
  | word =>
    obtain ⟨_, _, hnil, -⟩ := h
    exact List.cons_ne_nil _ _ hnil.symm
  | quoted | unterminated =>
    obtain ⟨_, hnil, -⟩ := h
    exact List.cons_ne_nil _ _ hnil.symm
  | symbol s => cases s <;> cases h
  | illegal => exact h

/-- No text matches two patterns. -/
theorem Shape.eq_of_pattern {s s' : Shape} {cs : List Char} (h : s.Pattern cs)
    (h' : s'.Pattern cs) : s = s' := by
  obtain ⟨c, cs, rfl⟩ := List.exists_cons_of_ne_nil (ne_nil_of_pattern h)
  have hmunch := munch_of_pattern h
  rw [munch_of_pattern h'] at hmunch
  cases hmunch
  rfl

/-! ## Nothing longer matches -/

/-- Where a pattern matches, the lexeme is at least as long as the match and has a pattern. -/
theorem prefix_text_munch {s : Shape} {t rest : List Char} {c : Char} {cs : List Char}
    (h : s.Pattern t) (ht : c :: cs = t ++ rest) :
    t <+: (munch c cs).1.text ∧ (munch c cs).1.shape ≠ .illegal := by
  cases s with
  | newlines =>
    obtain ⟨c', ds, rfl⟩ := List.exists_cons_of_ne_nil h.1
    obtain ⟨rfl, hds⟩ := List.forall_mem_cons.mp h.2
    obtain ⟨rfl, rfl⟩ := List.cons.inj ht
    have hspan : ∀ d ∈ ds, decide (d = '\n') = true := by simpa using hds
    exact ⟨List.cons_prefix_cons.mpr ⟨rfl, prefix_takeWhile_append hspan⟩, nofun⟩
  | word =>
    obtain ⟨c', ds, rfl, hc, hds⟩ := h
    obtain ⟨rfl, rfl⟩ := List.cons.inj ht
    have hspan : ∀ d ∈ ds, isWordPart d = true := fun d hd => isWordPart_iff.mpr (hds d hd)
    rw [munch_of_isWordStart (isWordStart_iff.mpr hc)]
    exact ⟨List.cons_prefix_cons.mpr ⟨rfl, prefix_takeWhile_append hspan⟩, nofun⟩
  | digits =>
    obtain ⟨c', ds, rfl⟩ := List.exists_cons_of_ne_nil h.1
    obtain ⟨hc, hds⟩ := List.forall_mem_cons.mp h.2
    obtain ⟨rfl, rfl⟩ := List.cons.inj ht
    have hspan : ∀ d ∈ ds, d.isDigit = true := fun d hd => isDigit_iff.mpr (hds d hd)
    rw [munch_of_isDigit (isDigit_iff.mpr hc)]
    exact ⟨List.cons_prefix_cons.mpr ⟨rfl, prefix_takeWhile_append hspan⟩, nofun⟩
  | quoted =>
    obtain ⟨ds, rfl, hds⟩ := h
    have hcs : c = '"' ∧ cs = ds ++ '"' :: rest := by simpa using ht
    obtain ⟨rfl, rfl⟩ := hcs
    rw [munch_quoted fun d hd => isStringPart_iff.mpr (hds d hd)]
    exact ⟨List.prefix_rfl, nofun⟩
  | unterminated =>
    obtain ⟨ds, rfl, hds⟩ := h
    obtain ⟨rfl, rfl⟩ := List.cons.inj ht
    have hspan : ds <+: (ds ++ rest).takeWhile isStringPart :=
      prefix_takeWhile_append fun d hd => isStringPart_iff.mpr (hds d hd)
    unfold munch
    rw [if_neg (by decide), if_neg (by decide), if_neg (by decide), if_pos rfl]
    split
    · exact ⟨List.cons_prefix_cons.mpr ⟨rfl, hspan.trans (List.prefix_append _ _)⟩, nofun⟩
    · exact ⟨List.cons_prefix_cons.mpr ⟨rfl, hspan⟩, nofun⟩
  | symbol s =>
    have ht : c :: cs = s.chars ++ rest := h ▸ ht
    by_cases hlonger : (s = .gt ∨ s = .lt) ∧ rest.head? = some '='
    · -- What is there is the symbol of two characters.
      obtain ⟨hs, hrest⟩ := hlonger
      obtain ⟨more, rfl⟩ := List.head?_eq_some_iff.mp hrest
      rcases hs with rfl | rfl <;> obtain ⟨rfl, rfl⟩ := List.cons.inj ht
      · exact ⟨⟨['='], by rw [h]; rfl⟩, nofun⟩
      · exact ⟨⟨['='], by rw [h]; rfl⟩, nofun⟩
    · have hrest : s = .gt ∨ s = .lt → ∀ d ∈ rest.head?, d ≠ '=' := by
        rintro hs d hd rfl
        exact hlonger ⟨hs, hd⟩
      obtain ⟨c', cs', hchars, -, hmunch⟩ := exists_munch_symbol s hrest
      obtain ⟨rfl, rfl⟩ := List.cons.inj (ht.trans hchars)
      rw [hmunch, h]
      exact ⟨List.prefix_rfl, nofun⟩
  | illegal => exact False.elim h

/-- What is taken off a text is the longest match, or a single character. -/
theorem longest_munch (c : Char) (cs : List Char) : (munch c cs).1.Longest (munch c cs).2 := by
  rw [Longest, munch_append]
  obtain ⟨more, htext⟩ := exists_text_munch c cs
  have hne : (munch c cs).1.text ≠ [] := by simp [htext]
  by_cases hshape : (munch c cs).1.shape = .illegal
  · have hproper := proper_munch c cs
    rw [Proper, hshape] at hproper
    obtain ⟨d, hd, -⟩ := hproper
    refine Or.inr ⟨hshape, by rw [hd]; rfl, ?_⟩
    rintro s t h ⟨rest, ht⟩
    exact (prefix_text_munch h ht.symm).2 hshape
  · have hpattern := (proper_munch c cs).pattern hne hshape
    refine Or.inl ⟨hpattern, ?_⟩
    rintro s t h ⟨rest, ht⟩
    have hprefix := (prefix_text_munch h ht.symm).1
    rcases Nat.lt_or_ge t.length (munch c cs).1.text.length with hlt | hge
    · exact Or.inr hlt
    · obtain rfl := hprefix.eq_of_length_le hge
      exact Or.inl (by rw [Shape.eq_of_pattern h hpattern])

end Lexeme

end AccessPolicy
